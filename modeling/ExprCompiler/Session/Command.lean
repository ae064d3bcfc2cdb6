import ExprCompiler.Code.Edit
import ExprCompiler.Engine.Callable
import ExprCompiler.Symbol.Collection

/-! What can be asked of a session, and what it answers. -/
namespace ExprCompiler

inductive Operand where
  | node (k : Nat)
  | var (k : Nat)
  | const (c : Double)

inductive Blueprint where
  | var (k : Nat)
  | const (c : Double)
  | neg (a : Operand)
  | binary (op : BinaryOp) (a b : Operand)
  | call (name : String) (args : List Operand)

inductive TableRef where
  | engine (k : Nat)
  | table (k : Nat)

/-- Engines, units and so on are named by the number they were answered under. A
node that is not given is the last one. -/
inductive Command where
  | outline (node : Option Nat)
  | display (node : Option Nat)
  | dag (node : Option Nat)
  | vars (node : Option Nat)
  | allVariables
  | sameNode (a b : Nat)
  | sameVariable (a b : Nat)
  | arithmetic (op : BinaryOp) (x y : Double)
  | eval (node : Option Nat) (params : List Nat) (args : List Double)
  | fold (node : Option Nat)
  | newTable (host : Bool)
  | register (table : TableRef) (function : Intrinsic)
  | registerCollected (table : TableRef) (name : String)
  | registerAllCollected (table : TableRef)
  | registerSeveral (table : TableRef) (names : List String)
  | clearRegistered (table : TableRef)
  | known (table : TableRef) (name : String)
  | resolve (table : TableRef) (name : String) (arity : Nat)
  | newEngine (config : Config)
  | dropEngine (engine : Nat)
  | freeMemory (engine : Nat)
  | signature (arity : Nat)
  | evaluate (engine : Nat) (node : Option Nat) (params : List Nat) (args : List Double)
  | lower (engine : Nat) (node : Option Nat) (params : List Nat) (strategy : Strategy)
  | function (unit : Nat) (name : String)
  | edit (unit : Nat) (change : Edit)
  | verify (unit : Nat)
  | compile (engine verified : Nat)
  | wrap (entry arity : Nat)
  | compileExpr (engine : Nat) (node : Option Nat) (params : List Nat) (strategy : Strategy)
  | compileInferred (engine : Nat) (node : Option Nat) (strategy : Strategy)
  | tamper (entry : Nat) (change : Tampering)
  | tamperCallable (callable : Nat) (change : Tampering)
  | invoke (callable : Nat) (args : List Double)
  | isLive (callable : Nat)
  | address (callable : Nat) (name : String)
  | dropCallable (callable : Nat)
  | buffer (callable : Nat)
  | newBuffer (size : Nat)
  | writeBuffer (buffer : Nat) (args : List Double)

/-- A node in a list of nodes: its operands are places in the list, and `handle`
is the first number under which the session knows it. -/
structure ListedNode where
  node : Node
  handle : Option Nat

inductive Answer where
  | outline (display dump : String)
  | display (text : String)
  | dag (items : List ListedNode)
  | vars (vs : List Variable)
  | allVariables (vs : List Variable)
  | sameNode (same : Bool)
  | sameVariable (same : Bool) (order : Ordering)
  | arithmetic (value : Double) (symbol : String)
  | value (x : Double)
  | folded (same : Bool) (display : String) (items : List ListedNode) (node : Nat)
  | table (k : Nat)
  | done
  | added (count : Nat)
  | known (function : Option Intrinsic)
  | resolved (origin : Origin)
  | engine (k : Nat) (config : Config)
  | signature (s : Signature)
  | unit (k : Nat) (u : CompilationUnit)
  | found (b : Bool)
  | verified (k : Nat) (u : CompilationUnit)
  | entry (k : Nat) (e : Entry) (live : Bool)
  | callable (k : Nat) (c : Callable)
  | isLive (b : Bool)
  | address
  | buffer (values : Option ArgBuffer)
  | newBuffer (k : Nat) (b : ArgBuffer)
  | written (b : ArgBuffer)

end ExprCompiler
