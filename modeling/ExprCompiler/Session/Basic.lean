import ExprCompiler.Graph.Evaluation
import ExprCompiler.Graph.Variables
import ExprCompiler.Session.Command
import ExprCompiler.Symbol.Catalogue
import ExprCompiler.Symbol.Library

/-! The state of a session: one graph, and a list of each kind of thing that
was made. A thing that is used up leaves its place empty, so that numbers stay
what they are. -/
namespace ExprCompiler

structure Session where
  platform : Platform
  folded : Bool
  vars : List Variable
  graph : Graph
  nodes : List Nat
  engines : List (Option Engine)
  tables : List SymbolTable
  units : List (Option CompilationUnit)
  verified : List (Option VerifiedUnit)
  entries : List (Option Entry)
  callables : List (Option Callable)
  buffers : List ArgBuffer
  nextUnit : Nat

namespace Session

/-- With `folded` every expression is folded before it is lowered. -/
def on (platform : Platform) (folded : Bool) : Session where
  platform := platform
  folded := folded
  vars := []
  graph := .empty
  nodes := []
  engines := []
  tables := []
  units := []
  verified := []
  entries := []
  callables := []
  buffers := []
  nextUnit := 0

def new (folded : Bool) : Session := on .standard folded

def addVariable (s : Session) (name : Option String) : Session :=
  let id := s.vars.length
  { s with vars := s.vars ++ [(name.map fun n => ⟨id, n⟩).getD (.anonymous id)] }

def push (s : Session) (n : Node) : Option (Session × Nat) :=
  (s.graph.push? n).map fun g => ({ s with graph := g }, s.graph.size)

def operand (s : Session) : Operand → Option (Session × Nat)
  | .node k => (s.nodes[k]?).map fun i => (s, i)
  | .var k => (s.vars[k]?).bind fun v => s.push (.var v)
  | .const c => s.push (.const c)

def operands (s : Session) : List Operand → Option (Session × List Nat)
  | [] => some (s, [])
  | o :: os => do
    let (s, i) ← s.operand o
    let (s, is) ← s.operands os
    return (s, i :: is)

/-- The graph's node of a description; leaves among the operands come first. -/
def build (s : Session) : Blueprint → Option (Session × Nat)
  | .var k => s.operand (.var k)
  | .const c => s.operand (.const c)
  | .neg a => do
    let (s, i) ← s.operand a
    s.push (.neg i)
  | .binary op a b => do
    let (s, i) ← s.operand a
    let (s, j) ← s.operand b
    s.push (.binary op i j)
  | .call name args => do
    let (s, is) ← s.operands args
    s.push (.call name is)

def addNode (s : Session) (b : Blueprint) : Option Session :=
  (s.build b).map fun (s, i) => { s with nodes := s.nodes ++ [i] }

def node? (s : Session) : Option Nat → Option Nat
  | some k => s.nodes[k]?
  | none => s.nodes.getLast?

def params? (s : Session) : List Nat → Option (List Variable)
  | [] => some []
  | k :: ks => do
    let v ← s.vars[k]?
    let vs ← s.params? ks
    return v :: vs

def engine? (s : Session) (k : Nat) : Option Engine := (s.engines[k]?).join

def setEngine (s : Session) (k : Nat) (e : Option Engine) : Session :=
  { s with engines := s.engines.set k e }

def table? (s : Session) : TableRef → Option SymbolTable
  | .engine k => (s.engine? k).map (·.symbols)
  | .table k => s.tables[k]?

def setTable (s : Session) (r : TableRef) (t : SymbolTable) : Session :=
  match r with
  | .engine k => s.setEngine k ((s.engine? k).map fun e => { e with symbols := t })
  | .table k => { s with tables := s.tables.set k t }

def listNodes (s : Session) (g : Graph) (root : Nat) : List ListedNode :=
  let order := g.postorder root
  order.map fun i => ⟨(g.node i).map order.idxOf, s.nodes.findIdx? (· = i)⟩

end Session
end ExprCompiler
