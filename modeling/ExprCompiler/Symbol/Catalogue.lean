import ExprCompiler.Symbol.Intrinsic

/-! Functions that are ready to be registered under any name. -/
namespace ExprCompiler.Catalogue

def triple : Native := .unary fun x => 3.0 * x
def half : Native := .unary fun x => x / 2.0
def avg : Native := .binary fun a b => (a + b) / 2.0
def minus : Native := .binary fun a b => a - b

end ExprCompiler.Catalogue
