import ExprCompiler.Number.Double

/-! The nodes of an expression over doubles. A node names its operands by
number, so one node can be the operand of many. -/
namespace ExprCompiler

/-- A variable. The number tells variables apart; the name is only shown. -/
structure Variable where
  id : Nat
  name : String
deriving DecidableEq

def Variable.anonymous (id : Nat) : Variable := ⟨id, s!"var{id}"⟩

inductive BinaryOp where
  | add
  | sub
  | mul
  | div
deriving DecidableEq

namespace BinaryOp

def symbol : BinaryOp → String
  | .add => "+"
  | .sub => "-"
  | .mul => "*"
  | .div => "/"

def apply : BinaryOp → Double → Double → Double
  | .add, x, y => x + y
  | .sub, x, y => x - y
  | .mul, x, y => x * y
  | .div, x, y => x / y

end BinaryOp

inductive Node where
  | var (v : Variable)
  | const (value : Double)
  | neg (operand : Nat)
  | binary (op : BinaryOp) (left right : Nat)
  | call (name : String) (args : List Nat)
deriving DecidableEq

namespace Node

def operands : Node → List Nat
  | .var _ | .const _ => []
  | .neg a => [a]
  | .binary _ a b => [a, b]
  | .call _ args => args

def map (f : Nat → Nat) : Node → Node
  | .var v => .var v
  | .const c => .const c
  | .neg a => .neg (f a)
  | .binary op a b => .binary op (f a) (f b)
  | .call name args => .call name (args.map f)

@[simp] theorem operands_map (f : Nat → Nat) (n : Node) :
    (n.map f).operands = n.operands.map f := by
  cases n <;> rfl

end Node
end ExprCompiler
