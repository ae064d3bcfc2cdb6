import ExprCompiler.Code.ArgBuffer
import ExprCompiler.Code.Signature
import ExprCompiler.Graph.Node

/-! Compilation units: declarations of functions and straight-line bodies for
those that are the unit's own. Inside a body values are numbered, the block's
parameters first and then one for each instruction. -/
namespace ExprCompiler

inductive Strategy where
  | positional
  | buffer
  | auto
deriving DecidableEq

def Strategy.text : Strategy → String
  | .positional => "Positional"
  | .buffer => "Buffer"
  | .auto => "Auto"

def maxPositional : Nat := 8

inductive Linkage where
  | own
  | imported
deriving DecidableEq

structure Declaration where
  name : String
  linkage : Linkage
  signature : Signature
deriving DecidableEq

/-- What a reference to a function names. Declarations of the unit have the
name space 0. -/
inductive Target where
  | declaration (space index : Nat)
  | library
deriving DecidableEq

structure FunctionRef where
  target : Target
  signature : Signature
deriving DecidableEq

inductive Instr where
  | const (value : Double)
  | neg (operand : Nat)
  | binary (op : BinaryOp) (left right : Nat)
  | call (reference : Nat) (args : List Nat)
  /-- The address of the unit's argument buffer. -/
  | bufferAddress
  /-- The double that many bytes after an address. -/
  | load (base : Nat) (offset : Int32)
deriving DecidableEq

def Instr.operands : Instr → List Nat
  | .const _ | .bufferAddress => []
  | .neg a => [a]
  | .binary _ a b => [a, b]
  | .call _ args => args
  | .load base _ => [base]

structure Block where
  params : List Ty
  instrs : List Instr
  returned : Option (List Nat)
deriving DecidableEq

structure Body where
  index : Nat
  signature : Signature
  references : List FunctionRef
  block : Option Block
deriving DecidableEq

/-- Each body stands beside the number of the declaration that it belongs to.
The address that the code loads its arguments from is kept as its distance from
the buffer's own address. -/
structure CompilationUnit where
  id : Nat
  declarations : List Declaration
  bodies : List (Nat × Body)
  arity : Nat
  strategy : Strategy
  buffer : Option ArgBuffer
  baked : Option Int
deriving DecidableEq

def calleeName : String := "callee"

def callerName : String := "caller"

namespace CompilationUnit

def imports (u : CompilationUnit) : List Declaration :=
  u.declarations.filter (·.linkage = .imported)

def function? (u : CompilationUnit) (name : String) : Option Body :=
  (u.bodies.find? fun (k, _) => (u.declarations[k]?.map (·.name)) = some name).map (·.2)

end CompilationUnit
end ExprCompiler
