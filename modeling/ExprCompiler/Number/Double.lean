/-! Doubles, bit by bit.

The arithmetic is that of `Float`, which has a single NaN. Here a NaN keeps its
sign, because a sign can be copied from it: negation turns it around, every
other operation passes on a NaN that it is given, made quiet, and an operation
without a result gives the negative one.

A finite double is `±mantissa * 2^exponent`; `parts` reads the two numbers off
the bits, so that text and remainders can be computed exactly in the natural
numbers. -/
namespace ExprCompiler

structure Double where
  bits : UInt64
deriving DecidableEq

namespace Double

inductive Parts where
  | nan
  | infinite (negative : Bool)
  | finite (negative : Bool) (mantissa : Nat) (exponent : Int)
deriving DecidableEq

def leadingBit : Nat := 4503599627370496

def signMask : UInt64 := 0x8000000000000000

def isNegative (x : Double) : Bool := signMask ≤ x.bits

def exponentField (x : Double) : Nat := x.bits.toNat / leadingBit % 2048

def fractionField (x : Double) : Nat := x.bits.toNat % leadingBit

/-- A zero exponent field marks a number without the leading one bit. -/
def parts (x : Double) : Parts :=
  if x.exponentField = 2047 then if x.fractionField = 0 then .infinite x.isNegative else .nan
  else if x.exponentField = 0 then .finite x.isNegative x.fractionField (-1074)
  else .finite x.isNegative (x.fractionField + leadingBit) (x.exponentField - 1075)

/-- The double below `mantissa * 2^exponent` is only half a step away when the
mantissa is the least one with the leading bit and the exponent can still fall. -/
def narrowBelow (mantissa : Nat) (exponent : Int) : Bool :=
  mantissa = leadingBit && exponent > -1074

def isNaN (x : Double) : Bool := x.exponentField = 2047 && x.fractionField ≠ 0

/-- The topmost fraction bit, `2^51`. A NaN without it is a signalling one. -/
def quietBit : Nat := 2251799813685248

def isSignalling (x : Double) : Bool := x.isNaN && x.fractionField < quietBit

def quiet (x : Double) : Double := if x.isSignalling then ⟨x.bits + .ofNat quietBit⟩ else x

def nan : Double := ⟨0x7ff8000000000000⟩

/-- The NaN of an operation without a result, such as the quotient of two
zeros. It is negative. -/
def invalid : Double := ⟨0xfff8000000000000⟩

def infinity : Double := ⟨0x7ff0000000000000⟩

def toFloat (x : Double) : Float := Float.ofBits x.bits

def ofFloat (x : Float) : Double := if x.isNaN then invalid else ⟨x.toBits⟩

def ofNat (n : Nat) : Double := ofFloat (Float.ofNat n)

instance (n : Nat) : OfNat Double n := ⟨ofNat n⟩

instance : OfScientific Double := ⟨fun m negative e => ofFloat (.ofScientific m negative e)⟩

def lift (f : Float → Float) (x : Double) : Double :=
  if x.isNaN then x.quiet else ofFloat (f x.toFloat)

/-- A function of two numbers; a NaN is passed on, of two the first. -/
def lift₂ (f : Float → Float → Float) (x y : Double) : Double :=
  if x.isNaN then x.quiet else if y.isNaN then y.quiet else ofFloat (f x.toFloat y.toFloat)

instance : Add Double := ⟨lift₂ (· + ·)⟩

instance : Sub Double := ⟨lift₂ (· - ·)⟩

instance : Mul Double := ⟨lift₂ (· * ·)⟩

instance : Div Double := ⟨lift₂ (· / ·)⟩

instance : Neg Double := ⟨fun x => ⟨x.bits ^^^ signMask⟩⟩

def abs (x : Double) : Double := if x.isNegative then -x else x

/-- As numbers: the two zeros are equal, and a NaN is equal to nothing. -/
def equals (x y : Double) : Bool := x.toFloat == y.toFloat

instance : LT Double := ⟨fun x y => x.toFloat < y.toFloat⟩

instance (x y : Double) : Decidable (x < y) := inferInstanceAs (Decidable (x.toFloat < y.toFloat))

end Double
end ExprCompiler
