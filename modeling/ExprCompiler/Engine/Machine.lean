import ExprCompiler.Code.Unit
import ExprCompiler.Error
import ExprCompiler.Symbol.Intrinsic

/-! Running linked code. Functions are called by their number. The code has no
jumps, so a call nested deeper than there are functions is a call that never
comes back; the depth is bounded by that. -/
namespace ExprCompiler

inductive Function where
  | native (name : String) (arity : Nat) (native : Native)
  | code (arity : Nat) (body : Body)
  | absent

inductive Word where
  | double (x : Double)
  | address
deriving DecidableEq

def Word.toDouble : Word → Double
  | .double x => x
  | .address => 0

namespace Machine

def read (values : List Word) (v : Nat) : Except MachineFault Word :=
  match values[v]? with
  | some w => .ok w
  | none => .error (.undefinedValue v)

def readAll (values : List Word) : List Nat → Except MachineFault (List Word)
  | [] => .ok []
  | v :: vs => do
    let w ← read values v
    let ws ← readAll values vs
    return w :: ws

/-- The slot at a byte offset of the buffer; outside of it there is zero. -/
def slot (slots : List Double) (offset : Int32) : Double :=
  if offset.toInt < 0 then 0 else slots.getD (offset.toInt.toNat / 8) 0

/-- One instruction: the value it defines and the calls it makes. `enter` is how
a function of the unit is called. -/
def step (enter : Nat → List Word → Except MachineFault (Word × List Call)) (slots : List Double)
    (references : List FunctionRef) (values : List Word) :
    Instr → Except MachineFault (Word × List Call)
  | .const c => .ok (.double c, [])
  | .neg a => do
    let x ← read values a
    return (.double (-x.toDouble), [])
  | .binary op a b => do
    let x ← read values a
    let y ← read values b
    return (.double (op.apply x.toDouble y.toDouble), [])
  | .call reference args =>
    match references[reference]? with
    | some ⟨.declaration 0 index, _⟩ => do
      let ws ← readAll values args
      enter index ws
    | _ => .error (.missingFunction reference)
  | .bufferAddress => .ok (.address, [])
  | .load base offset => do
    let _ ← read values base
    return (.double (slot slots offset), [])

def steps (enter : Nat → List Word → Except MachineFault (Word × List Call)) (slots : List Double)
    (references : List FunctionRef) :
    List Word → List Instr → Except MachineFault (List Word × List Call)
  | values, [] => .ok (values, [])
  | values, instr :: rest => do
    let (w, made) ← step enter slots references values instr
    let (final, later) ← steps enter slots references (values ++ [w]) rest
    return (final, made ++ later)

/-- Calls a function with at most `depth` calls open at once. -/
def call (functions : List Function) (slots : List Double) :
    (depth : Nat) → (index : Nat) → (args : List Word) → Except MachineFault (Word × List Call)
  | 0, _, _ => .error .tooDeep
  | depth + 1, index, args =>
    match functions[index]? with
    | none => .error (.missingFunction index)
    | some .absent => .error (.absentBody index)
    | some (.native name arity native) =>
      if args.length ≠ arity then .error (.wrongArity index arity args.length)
      else
        let xs := args.map Word.toDouble
        .ok (.double (native.apply xs), [⟨name, xs⟩])
    | some (.code arity body) =>
      if args.length ≠ arity then .error (.wrongArity index arity args.length)
      else
        match body.block with
        | none => .error (.absentBody index)
        | some block => do
          let (values, made) ←
            steps (call functions slots depth) slots body.references args block.instrs
          match block.returned with
          | some [v] => do
            let w ← read values v
            return (w, made)
          | _ => .error (.noReturn index)

def arity (functions : List Function) (index : Nat) : Nat :=
  match functions[index]? with
  | some (.native _ arity _) => arity
  | some (.code arity _) => arity
  | _ => 0

/-- Enters a function from outside. It takes as many arguments as it reads; one
that was not passed reads as zero. -/
def run (functions : List Function) (slots : List Double) (index : Nat) (args : List Double) :
    Except MachineFault (Double × List Call) := do
  let (w, made) ←
    call functions slots functions.length index
      ((List.range (arity functions index)).map fun k => .double (args.getD k 0))
  return (w.toDouble, made)

end Machine
end ExprCompiler
