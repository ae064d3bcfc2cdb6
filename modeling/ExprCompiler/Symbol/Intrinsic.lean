import ExprCompiler.Number.Double

/-! Functions that compiled and evaluated expressions call by name. -/
namespace ExprCompiler

/-- A function of doubles as it is called: it takes what it needs from the
arguments passed, and one that was not passed reads as zero. -/
inductive Native where
  | unary (f : Double → Double)
  | binary (f : Double → Double → Double)

def Native.apply : Native → List Double → Double
  | .unary f, xs => f (xs.headD 0)
  | .binary f, xs => f (xs.headD 0) (xs.tail.headD 0)

structure Intrinsic where
  name : String
  arity : Nat
  native : Native

structure Call where
  name : String
  args : List Double
deriving DecidableEq

end ExprCompiler
