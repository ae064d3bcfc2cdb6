/-! Types, calling conventions and signatures of compiled functions. -/
namespace ExprCompiler

inductive Ty where
  | f64
  | f32
  | i64
  | i32
deriving DecidableEq

def Ty.text : Ty → String
  | .f64 => "f64"
  | .f32 => "f32"
  | .i64 => "i64"
  | .i32 => "i32"

inductive CallConv where
  | systemV
  | fast
deriving DecidableEq

def CallConv.text : CallConv → String
  | .systemV => "system_v"
  | .fast => "fast"

structure Signature where
  params : List Ty
  returns : List Ty
  conv : CallConv
deriving DecidableEq

namespace Signature

def f64 (arity : Nat) : Signature := ⟨List.replicate arity .f64, [.f64], .systemV⟩

def text (s : Signature) : String :=
  let types (ts : List Ty) : String := ", ".intercalate (ts.map Ty.text)
  "(" ++ types s.params ++ ")" ++ (if s.returns.isEmpty then "" else " -> " ++ types s.returns) ++
    " " ++ s.conv.text

end Signature
end ExprCompiler
