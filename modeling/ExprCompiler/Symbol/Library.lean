import ExprCompiler.Number.Elementary
import ExprCompiler.Symbol.Platform

/-! The platform that sessions run on: a mathematical library, the names under
which the process offers it, and a collection of three functions. Where `Float`
lacks a function of the library the formulas here stand in for it, and the last
bit of a result may be another one. -/
namespace ExprCompiler

namespace Library

open Double (lift lift₂)

/-- The double nearest to `m * 2^q`, a half going to the even mantissa, while
the result has all its bits. -/
def nearest (m : Nat) (q : Int) : Double :=
  let extra := m.log2 - 52
  let unit := Nat.pow 2 extra
  let low := m / unit
  let rest := m % unit
  let up := unit < 2 * rest ∨ (2 * rest = unit ∧ low % 2 = 1)
  Elementary.scaled false (if up then low + 1 else low) (q + extra)

def squareRoot (n : Nat) : (bits : Nat) → (root : Nat) → Nat
  | 0, root => root
  | bits + 1, root =>
    let tried := root + Nat.pow 2 bits
    squareRoot n bits (if tried * tried ≤ n then tried else root)

/-- The length of `(x, y)`: the squares are added exactly, and the root is taken
to 64 places, with one more bit that says whether it ends there. A side far
shorter than the other does not count. An infinite side wins over a quiet NaN. -/
def hypot (x y : Double) : Double :=
  if x.isSignalling || y.isSignalling then x + y
  else
    match x.parts, y.parts with
    | .infinite _, _ | _, .infinite _ => .infinity
    | .nan, _ => x
    | _, .nan => y
    | .finite _ m p, .finite _ n q =>
      if m = 0 then y.abs
      else if n = 0 then x.abs
      else if p + 64 < q then y.abs
      else if q + 64 < p then x.abs
      else
        let e := min p q
        let a := m * Nat.pow 2 (p - e).toNat
        let b := n * Nat.pow 2 (q - e).toNat
        let square := (a * a + b * b) * Nat.pow 2 128
        let root := squareRoot square (square.log2 / 2 + 1) 0
        nearest (2 * root + if root * root = square then 0 else 1) (e - 65)

/-- `exp x - 1` without cancellation: the error of the rounded `exp x` is
divided out through its logarithm. Above 40 the one is lost in rounding. -/
def expMinusOne : Double → Double :=
  lift fun x =>
    let u := x.exp
    if u == 1.0 then x
    else if 40.0 < x then u
    else if u - 1.0 == -1.0 then -1.0
    else (u - 1.0) * (x / u.log)

def logOnePlus : Double → Double :=
  lift fun x =>
    let u := 1.0 + x
    if u == 1.0 then x
    else if u.isInf then u.log
    else u.log * (x / (u - 1.0))

def clampUnit (x : Double) : Double := if x < 0 then 0 else if 1 < x then 1 else x

def quieting (f : Double → Double → Double) (x y : Double) : Double :=
  if x.isSignalling || y.isSignalling then x + y else f x y

def unary : List (String × (Double → Double)) :=
  [("cbrt", lift Float.cbrt), ("exp2", lift Float.exp2), ("expm1", expMinusOne),
   ("log1p", logOnePlus), ("log", lift Float.log),
   ("asinh", lift Float.asinh), ("acosh", lift Float.acosh), ("atanh", lift Float.atanh),
   ("fabs", Double.abs), ("trunc", Elementary.trunc), ("round", lift Float.round),
   ("rint", Elementary.roundEven),
   ("sin", lift Float.sin), ("cos", lift Float.cos), ("tan", lift Float.tan),
   ("asin", Elementary.asin), ("acos", Elementary.acos), ("atan", lift Float.atan),
   ("sinh", lift Float.sinh), ("cosh", lift Float.cosh), ("tanh", lift Float.tanh),
   ("exp", lift Float.exp), ("log10", Elementary.log10), ("log2", lift Float.log2),
   ("sqrt", lift Float.sqrt), ("floor", lift Float.floor), ("ceil", lift Float.ceil),
   -- The host's `abs` is on integers: it leaves the double it was passed in place.
   ("abs", id)]

def binary : List (String × (Double → Double → Double)) :=
  [("fmod", Elementary.modTruncated), ("copysign", Elementary.copySign),
   ("fmax", quieting Elementary.greater), ("fmin", quieting Elementary.lesser),
   ("fdim", Elementary.positiveDifference), ("remainder", Elementary.modNearest),
   ("pow", Elementary.pow), ("atan2", Elementary.atan2), ("hypot", hypot)]

/-- The name that the host looks for: one NUL at the end closes a name and is
not part of it; no name is empty or has a NUL inside. -/
def symbolName? (name : String) : Option String :=
  let cs := name.toList
  let body := if cs.getLast? = some '\x00' then cs.dropLast else cs
  if body.isEmpty || body.contains '\x00' then none else some (String.ofList body)

def symbol? (name : String) : Option Native :=
  (symbolName? name).bind fun key =>
    ((unary.lookup key).map Native.unary).or ((binary.lookup key).map Native.binary)

def collected : List Platform.Record :=
  [⟨⟨"clamp01", 1, .unary clampUnit⟩, "graphjit::ops"⟩,
   ⟨⟨"lerp_half", 2, .binary fun a b => a + (b - a) * 0.5⟩, "graphjit::ops"⟩,
   ⟨⟨"recip", 1, .unary fun x => 1.0 / x⟩, "graphjit::ops"⟩]

end Library

def Platform.standard : Platform := ⟨Library.hypot, Library.symbol?, Library.collected⟩

end ExprCompiler
