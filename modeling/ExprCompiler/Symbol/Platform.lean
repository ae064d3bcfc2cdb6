import ExprCompiler.Symbol.Intrinsic

/-! What the program finds around it and does not define. -/
namespace ExprCompiler

structure Platform.Record where
  intrinsic : Intrinsic
  home : String

/-- The length function of the mathematical library, the symbols of the host
process, found by their name alone, and the functions collected for
registration. -/
structure Platform where
  hypot : Double → Double → Double
  symbol? : String → Option Native
  collected : List Platform.Record

def Platform.collected? (p : Platform) (name : String) : Option Record :=
  p.collected.find? (·.intrinsic.name = name)

end ExprCompiler
