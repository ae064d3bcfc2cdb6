import ExprCompiler.Number.Decimal

/-! The texts of a double.

* `plainText`: the fewest digits that read back, always positional.
* `fieldText`: the same digits; a point is always written, and very small and
  very large numbers have an exponent.
* `roundedText`: a fixed count of digits and an exponent.
* `immediateText`: a constant in a listing, in hexadecimal. -/
namespace ExprCompiler

def zeros (n : Nat) : String := String.ofList (List.replicate n '0')

namespace Decimal

def positional (d : Decimal) (whole : String) : String :=
  let ds := toString d.digits
  if 0 ≤ d.exponent then ds ++ zeros d.exponent.toNat ++ whole
  else
    let places := (-d.exponent).toNat
    if places < ds.length then
      String.ofList (ds.toList.take (ds.length - places)) ++ "." ++
        String.ofList (ds.toList.drop (ds.length - places))
    else "0." ++ zeros (places - ds.length) ++ ds

def scientific (d : Decimal) : String :=
  let ds := toString d.digits
  let rest := String.ofList (ds.toList.drop 1)
  String.ofList (ds.toList.take 1) ++ (if rest.isEmpty then "" else "." ++ rest) ++
    "e" ++ toString (d.exponent + ((ds.length : Int) - 1))

def leading (d : Decimal) : Int := d.exponent + ((toString d.digits).length - 1)

end Decimal

def signed (negative : Bool) (text : String) : String :=
  if negative then "-" ++ text else text

/-- Positional with the fewest digits: `0.1`, `100`, `-0`, `NaN`, `inf`. -/
def plainText (x : Double) : String :=
  match x.parts with
  | .nan => "NaN"
  | .infinite negative => signed negative "inf"
  | .finite negative 0 _ => signed negative "0"
  | .finite negative m q => signed negative ((Decimal.shortest m q).positional "")

/-- As a field of a record: `1.0`, `-0.0`, and an exponent from 1e16 on and
below 1e-4. -/
def fieldText (x : Double) : String :=
  match x.parts with
  | .nan => "NaN"
  | .infinite negative => signed negative "inf"
  | .finite negative 0 _ => signed negative "0.0"
  | .finite negative m q =>
    let d := Decimal.shortest m q
    signed negative (if d.leading < -4 ∨ 16 ≤ d.leading then d.scientific else d.positional ".0")

def roundedText (count : Nat) (x : Double) : String :=
  match x.parts with
  | .nan => "nan"
  | .infinite negative => signed negative "inf"
  | .finite negative 0 _ => signed negative "0"
  | .finite negative m q => signed negative (Decimal.significant count m q).scientific

def hexText (width n : Nat) : String :=
  let ds := Nat.toDigits 16 n
  zeros (width - ds.length) ++ String.ofList ds

/-- Thirteen hexadecimal places and a binary exponent; a number without the
leading one bit starts with `0x0`. -/
def immediateText (x : Double) : String :=
  let places := hexText 13 x.fractionField
  match x.parts with
  | .nan => "NaN"
  | .infinite negative => if negative then "-Inf" else "+Inf"
  | .finite negative 0 _ => signed negative "0.0"
  | .finite negative m q =>
    if m < Double.leadingBit then signed negative ("0x0." ++ places ++ "p-1022")
    else signed negative ("0x1." ++ places ++ "p" ++ toString (q + 52))

end ExprCompiler
