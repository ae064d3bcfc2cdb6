import ExprCompiler.Symbol.Platform
import ExprCompiler.Number.Elementary

/-! The functions that are always known. -/
namespace ExprCompiler

open Double (lift)

/-- The one built-in with an effect: a call of it shows its argument. -/
def printName : String := "printd"

def builtinUnary : List (String × (Double → Double)) :=
  [("sin", lift Float.sin), ("cos", lift Float.cos), ("tan", lift Float.tan),
   ("asin", Elementary.asin), ("acos", Elementary.acos), ("atan", lift Float.atan),
   ("sinh", lift Float.sinh), ("cosh", lift Float.cosh), ("tanh", lift Float.tanh),
   ("exp", lift Float.exp), ("ln", lift Float.log), ("log10", Elementary.log10),
   ("log2", lift Float.log2), ("sqrt", lift Float.sqrt), ("abs", Double.abs),
   ("floor", lift Float.floor), ("ceil", lift Float.ceil), (printName, id)]

namespace Platform

def builtinBinary (p : Platform) : List (String × (Double → Double → Double)) :=
  [("pow", Elementary.pow), ("atan2", Elementary.atan2), ("hypot", p.hypot),
   ("min", Elementary.lesser), ("max", Elementary.greater)]

def builtins (p : Platform) : List Intrinsic :=
  builtinUnary.map (fun (name, f) => ⟨name, 1, .unary f⟩) ++
    p.builtinBinary.map (fun (name, f) => ⟨name, 2, .binary f⟩)

def builtin? (p : Platform) (name : String) : Option Intrinsic :=
  p.builtins.find? (·.name = name)

end Platform
end ExprCompiler
