import ExprCompiler.Graph.Walk
import ExprCompiler.Graph.Expr
import ExprCompiler.Symbol.Table

/-! The value of an expression.

`Expr.evaluate` is the meaning of a tree. `Graph.evaluate` follows the walk over
a graph, so that every node is computed once however often it is used, and also
gives the calls that were executed. Both check a call before its arguments. -/
namespace ExprCompiler

abbrev Bindings := List (Nat × Double)

def Bindings.ofArgs (params : List Variable) (args : List Double) : Bindings :=
  (params.map (·.id)).zip args

/-- The last value given to a variable counts. -/
def Bindings.value? (b : Bindings) (id : Nat) : Option Double := b.reverse.lookup id

def Bindings.value (b : Bindings) (v : Variable) : Except Error Double :=
  match b.value? v.id with
  | some x => .ok x
  | none => .error (.unboundVariable v.name)

def firstError : List (Except ε α) → Except ε (List α)
  | [] => .ok []
  | r :: rs => do
    let x ← r
    let xs ← firstError rs
    return x :: xs

def Expr.evaluate (t : SymbolTable) (b : Bindings) : Expr → Except Error Double :=
  Expr.fold
    { var := b.value
      const := .ok
      neg := fun a => do
        let x ← a
        return -x
      binary := fun op left right => do
        let x ← left
        let y ← right
        return op.apply x y
      call := fun name args => do
        let f ← t.resolveCall name args.length
        let xs ← firstError args
        return f.native.apply xs }

structure Evaluation where
  value : Assignment Double
  calls : List Call

namespace Evaluation

def start : Evaluation := ⟨fun _ => 0, []⟩

def record (s : Evaluation) (i : Nat) (x : Double) : Evaluation :=
  { s with value := s.value.set i x }

/-- A call is checked when it is entered; a value is computed when its node is
left, from those of its operands. -/
def step (g : Graph) (t : SymbolTable) (b : Bindings) (s : Evaluation) :
    Visit → Except Error Evaluation
  | .enter i =>
    match g.node i with
    | .call name args => (t.resolveCall name args.length).map fun _ => s
    | _ => .ok s
  | .again _ => .ok s
  | .leave i =>
    match g.node i with
    | .var v => (b.value v).map (s.record i)
    | .const c => .ok (s.record i c)
    | .neg a => .ok (s.record i (-(s.value a)))
    | .binary op left right => .ok (s.record i (op.apply (s.value left) (s.value right)))
    | .call name args =>
      (t.resolveCall name args.length).map fun f =>
        let xs := args.map s.value
        { s.record i (f.native.apply xs) with calls := s.calls ++ [⟨name, xs⟩] }

end Evaluation

/-- The value of a node with the parameters bound to the arguments, and the
calls executed, also those before an error. -/
def Graph.evaluate (g : Graph) (root : Nat) (t : SymbolTable) (params : List Variable)
    (args : List Double) : List Call × Except Error Double :=
  if args.length ≠ params.length then ([], .error (.arityMismatch params.length args.length))
  else
    match foldUntil (Evaluation.step g t (Bindings.ofArgs params args)) .start (g.visits root) with
    | (s, none) => (s.calls, .ok (s.value root))
    | (s, some e) => (s.calls, .error e)

end ExprCompiler
