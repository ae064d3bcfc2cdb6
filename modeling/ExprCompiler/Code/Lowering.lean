import ExprCompiler.Code.Unit
import ExprCompiler.Graph.Folding
import ExprCompiler.Log
import ExprCompiler.Symbol.Table

/-! Lowering an expression to a compilation unit.

The body of the callee is written along the walk: a node that is left emits its
instruction, a variable none. A called name is imported when its first call is
entered, so before the calls in its arguments. With the buffer strategy a second
function loads the arguments and calls the first. -/
namespace ExprCompiler

def Strategy.resolve (s : Strategy) (arity : Nat) : Except Error Strategy :=
  match s with
  | .auto => .ok (if arity ≤ maxPositional then .positional else .buffer)
  | .positional =>
    if arity ≤ maxPositional then .ok .positional
    else .error (.lowering (.tooManyParameters arity))
  | .buffer => .ok .buffer

def Variable.firstRepeated? (seen : List Nat) : List Variable → Option Variable
  | [] => none
  | v :: vs => if v.id ∈ seen then some v else Variable.firstRepeated? (v.id :: seen) vs

structure Import where
  reference : Nat
  arity : Nat

/-- The state of lowering. Declarations are the unit's, references the callee's, and
an imported name leads to its reference; instructions come with the value that each
lowered node has. -/
structure Lowering where
  declarations : List Declaration
  references : List FunctionRef
  imported : List (String × Import)
  instrs : List Instr
  value : Assignment Nat
  notes : List Note

namespace Lowering

def start (arity : Nat) : Lowering :=
  ⟨[⟨calleeName, .own, .f64 arity⟩], [], [], [], fun _ => 0, []⟩

/-- The number of the import of that name, which is declared unless it is there. A
function of the unit's own may have the name as well. -/
def declareImport (s : Lowering) (name : String) (arity : Nat) : Lowering × Nat :=
  match s.declarations.findIdx? fun d => d.linkage = .imported && d.name = name with
  | some index => (s, index)
  | none =>
    ({ s with declarations := s.declarations ++ [⟨name, .imported, .f64 arity⟩] },
     s.declarations.length)

def newImport (s : Lowering) (name : String) (arity : Nat) : Lowering :=
  let (s, index) := s.declareImport name arity
  { s with
    references := s.references ++ [⟨.declaration 0 index, .f64 arity⟩]
    imported := s.imported ++ [(name, ⟨s.references.length, arity⟩)]
    notes := s.notes ++ [.declaredImport name arity index] }

def addImport (s : Lowering) (name : String) (arity : Nat) : Except Error Lowering :=
  match s.imported.lookup name with
  | some known =>
    if known.arity = arity then .ok s
    else .error (.lowering (.declaredArity name known.arity arity))
  | none => .ok (s.newImport name arity)

def declare (t : SymbolTable) (s : Lowering) (name : String) (arity : Nat) :
    Except Error Lowering :=
  if arity < 1 ∨ 2 < arity then .error (.lowering (.unsupportedCall name arity))
  else
    match t.known? name with
    | some i =>
      if i.arity = arity then s.addImport name arity
      else .error (.lowering (.knownArity name i.arity arity))
    | none => s.addImport name arity

def reference (s : Lowering) (name : String) : Nat :=
  ((s.imported.lookup name).map (·.reference)).getD 0

def emit (s : Lowering) (arity i : Nat) (instr : Instr) : Lowering :=
  { s with
    instrs := s.instrs ++ [instr]
    value := s.value.set i (arity + s.instrs.length) }

def step (g : Graph) (t : SymbolTable) (params : List Variable) (s : Lowering) :
    Visit → Except Error Lowering
  | .enter i =>
    match g.node i with
    | .call name args => s.declare t name args.length
    | _ => .ok s
  | .again i => .ok { s with notes := s.notes ++ [.reusedNode g i] }
  | .leave i =>
    match g.node i with
    | .var v =>
      match params.findIdx? (·.id = v.id) with
      | some k => .ok { s with value := s.value.set i k }
      | none => .error (.unboundVariable v.name)
    | .const c => .ok (s.emit params.length i (.const c))
    | .neg a => .ok (s.emit params.length i (.neg (s.value a)))
    | .binary op a b => .ok (s.emit params.length i (.binary op (s.value a) (s.value b)))
    | .call name args =>
      .ok (s.emit params.length i (.call (s.reference name) (args.map s.value)))

def callee (s : Lowering) (arity root : Nat) : Body where
  index := 0
  signature := .f64 arity
  references := s.references
  block := some ⟨List.replicate arity .f64, s.instrs, some [s.value root]⟩

/-- The function without parameters that loads slot after slot of the buffer
and calls declaration 0. -/
def caller (index arity : Nat) : Body where
  index := index
  signature := .f64 0
  references := [⟨.declaration 0 0, .f64 arity⟩]
  block := some
    { params := []
      instrs := .bufferAddress ::
        ((List.range arity).map fun i => .load 0 (Int32.ofNat (8 * i))) ++
          [.call 0 ((List.range arity).map (· + 1))]
      returned := some [arity + 1] }

def finish (s : Lowering) (id arity root : Nat) (strategy : Strategy) : CompilationUnit :=
  match strategy with
  | .buffer =>
    let last := s.declarations.length
    { id, arity, strategy
      declarations := s.declarations ++ [⟨callerName, .own, .f64 0⟩]
      bodies := [(0, s.callee arity root), (last, caller last arity)]
      buffer := some (.new arity)
      baked := some 0 }
  | _ =>
    { id, arity, strategy
      declarations := s.declarations
      bodies := [(0, s.callee arity root)]
      buffer := none
      baked := none }

end Lowering

/-- Lowers a node, as it is or folded first. The strategy is checked before the
parameters, and these before the expression. -/
def Graph.lower (g : Graph) (root : Nat) (folded : Bool) (t : SymbolTable) (id : Nat)
    (params : List Variable) (strategy : Strategy) : Traced CompilationUnit :=
  match strategy.resolve params.length with
  | .error e => ⟨[], .error e⟩
  | .ok strategy =>
    match Variable.firstRepeated? [] params with
    | some v => ⟨[], .error (.lowering (.repeatedParameter v))⟩
    | none =>
      let (g, root) := if folded then g.foldConstants root else (g, root)
      match foldUntil (Lowering.step g t params) (.start params.length) (g.visits root) with
      | (s, none) => ⟨s.notes, .ok (s.finish id params.length root strategy)⟩
      | (s, some e) => ⟨s.notes, .error e⟩

end ExprCompiler
