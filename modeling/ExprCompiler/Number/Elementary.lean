import ExprCompiler.Number.Double

/-! Functions of one or two doubles beside the arithmetic. The two remainders
are exact: both arguments are brought to the smaller exponent and computed with
as natural numbers. -/
namespace ExprCompiler.Elementary

open Double (lift lift₂)

def scaled (negative : Bool) (m : Nat) (q : Int) : Double :=
  let x := Double.ofFloat ((Float.ofNat m).scaleB q)
  if negative then -x else x

def copySign (x y : Double) : Double := if y.isNegative then -x.abs else x.abs

def trunc : Double → Double := lift fun x => if x < 0 then x.ceil else x.floor

/-- To the nearest integer, a half to the even one: at `2^52` the doubles are
the integers, so adding it rounds the fraction away. -/
def roundEven (x : Double) : Double :=
  if x.abs < 4503599627370496 then copySign ((x.abs + 4503599627370496) - 4503599627370496) x
  else x.quiet

def modTruncated (x y : Double) : Double :=
  match x.parts, y.parts with
  | .nan, _ => x.quiet
  | _, .nan => y.quiet
  | .infinite _, _ => .invalid
  | .finite _ _ _, .infinite _ => x
  | .finite sx m p, .finite _ n q =>
    if n = 0 then .invalid
    else
      let e := min p q
      scaled sx (m * Nat.pow 2 (p - e).toNat % (n * Nat.pow 2 (q - e).toNat)) e

/-- The remainder of the division rounded to the nearest integer, a half to the
even one; a zero has the sign of `x`. Of two NaNs the second is passed on. -/
def modNearest (x y : Double) : Double :=
  match x.parts, y.parts with
  | _, .nan => y.quiet
  | .nan, _ => x.quiet
  | .infinite _, _ => .invalid
  | .finite _ _ _, .infinite _ => x
  | .finite sx m p, .finite _ n q =>
    if n = 0 then .invalid
    else
      let e := min p q
      let a := m * Nat.pow 2 (p - e).toNat
      let b := n * Nat.pow 2 (q - e).toNat
      let r := a % b
      if b < 2 * r ∨ (2 * r = b ∧ a / b % 2 = 1) then scaled (!sx) (b - r) e else scaled sx r e

/-- The lesser argument; a NaN gives way to a number, and of two NaNs the first
is passed on. -/
def lesser (x y : Double) : Double :=
  if y.isNaN then x else if x.isNaN then y else if x < y then x else y

def greater (x y : Double) : Double :=
  if y.isNaN then x else if x.isNaN then y else if y < x then x else y

def positiveDifference : Double → Double → Double :=
  lift₂ fun x y => if y < x then x - y else 0

/-- A function that gives the positive NaN outside its domain. -/
def restricted (f : Float → Float) (x : Double) : Double :=
  if x.isNaN then x.quiet else if (f x.toFloat).isNaN then .nan else .ofFloat (f x.toFloat)

def asin : Double → Double := restricted Float.asin

def acos : Double → Double := restricted Float.acos

def log10 : Double → Double := restricted Float.log10

def atan2 (y x : Double) : Double := if x.isNaN then x.quiet else lift₂ Float.atan2 y x

def isOdd (x : Double) : Bool :=
  match x.parts with
  | .finite _ m q =>
    let unit := Nat.pow 2 (-q).toNat
    q ≤ 0 && m % unit = 0 && m / unit % 2 = 1
  | _ => false

/-- `x ^ y`. A power to zero and a power of one are one, whatever the other
number is, but for a signalling NaN. An odd power of a NaN is positive. -/
def pow (x y : Double) : Double :=
  if y.equals 0 || x.equals 1 then if x.isSignalling || y.isSignalling then x + y else 1
  else if x.isNaN && isOdd y then x.quiet.abs
  else lift₂ Float.pow x y

end ExprCompiler.Elementary
