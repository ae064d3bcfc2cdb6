import ExprCompiler.Number.Double

/-! Decimal digits of a positive binary number `m * 2^q`, exactly.

`shortest` gives the fewest digits that still round to the number, and of those
the nearest to it. `significant` gives a fixed count of digits. Both look at the
number on the grid of multiples of a power of ten, where only the two
neighbours of the number matter. -/
namespace ExprCompiler

structure Decimal where
  digits : Nat
  exponent : Int
deriving DecidableEq

namespace Decimal

/-- Factors with `a * 2^q / 10^p = a * up / down`. -/
def gridFactors (q p : Int) : Nat × Nat :=
  (Nat.pow 2 q.toNat * Nat.pow 10 (-p).toNat, Nat.pow 2 (-q).toNat * Nat.pow 10 p.toNat)

def belowPower (m : Nat) (q k : Int) : Bool :=
  let (up, down) := gridFactors q k
  m * up < down

/-- The least `k` with `m * 2^q < 10^k`. The binary logarithm times 1233/4096,
rounded down, is never above it and at most two below. -/
def magnitude (m : Nat) (q : Int) : Int :=
  let guess := ((m.log2 : Int) + q) * 1233 / 4096
  if belowPower m q guess then guess
  else if belowPower m q (guess + 1) then guess + 1
  else guess + 2

def trim (d : Decimal) : (fuel : Nat) → Decimal
  | 0 => d
  | fuel + 1 =>
    if d.digits ≠ 0 ∧ d.digits % 10 = 0 then trim ⟨d.digits / 10, d.exponent + 1⟩ fuel else d

/-- The reals that round to `m * 2^q`, in quarters of `2^q`. The ends belong to
it exactly when `m` is even. -/
def roundsTo (m : Nat) (q : Int) (p : Int) (c : Nat) : Bool :=
  let (up, down) := gridFactors (q - 2) p
  let least := (4 * m - if Double.narrowBelow m q then 1 else 2) * up
  let greatest := (4 * m + 2) * up
  if m % 2 = 0 then least ≤ c * down && c * down ≤ greatest
  else least < c * down && c * down < greatest

/-- The nearest of the two neighbours on the grid `10^p` that rounds to the
number, if one does. Of two at the same distance the greater is taken. -/
def onGrid? (m : Nat) (q p : Int) : Option Nat :=
  let (up, down) := gridFactors q p
  let low := m * up / down
  let rest := m * up % down
  match roundsTo m q p low, roundsTo m q p (low + 1) with
  | true, true => some (if down ≤ 2 * rest then low + 1 else low)
  | true, false => some low
  | false, true => some (low + 1)
  | false, false => none

def shortest (m : Nat) (q : Int) : Decimal :=
  let k := magnitude m q
  let found := (List.range 17).findSome? fun (n : Nat) =>
    (onGrid? m q (k - (n + 1))).map fun c => (⟨c, k - (n + 1)⟩ : Decimal)
  (found.getD ⟨m, q⟩).trim 20

def significant (count : Nat) (m : Nat) (q : Int) : Decimal :=
  let p := magnitude m q - count
  let (up, down) := gridFactors q p
  let low := m * up / down
  let rest := m * up % down
  let near := if 2 * rest < down ∨ (2 * rest = down ∧ low % 2 = 0) then low else low + 1
  if near = Nat.pow 10 count then ⟨near / 10, p + 1⟩ else ⟨near, p⟩

end Decimal
end ExprCompiler
