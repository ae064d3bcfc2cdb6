import ExprCompiler.Number.Double
import Mathlib

/-! Which arithmetic does nothing, bit by bit. Multiplying and dividing by one
and subtracting zero give back the other operand, of whatever kind it is but for
a signalling NaN: the exact result fits the format, so rounding keeps it. Of the
two zeros the negative one is special: taken from itself it gives the positive
zero. A signalling NaN is never the result of arithmetic. -/
namespace ExprCompiler.Double

open Float.Model Float.Model.UnpackedFloat

def unpacked (x : Double) : UnpackedFloat := UnpackedFloat.unpack Format.binary64 x.bits.toBitVec

/-- What the format holds: fifty-three bits of mantissa, the topmost of which may
only be missing at the least exponent. -/
def Fits : UnpackedFloat → Prop
  | .finite _ m e _ => m < 2 ^ 53 ∧ -1074 ≤ e ∧ (2 ^ 52 ≤ m ∨ e = -1074)
  | _ => True

private theorem exponentBias_eq : Format.binary64.exponentBias = 1023 := by decide

private theorem targetExponent_eq (x : Int) :
    Format.binary64.targetExponent x = max (x - 53) (-1074) := rfl

private theorem toNat_leading (m : BitVec 52) : (1#1 ++ m).toNat = 2 ^ 52 + m.toNat := by
  rw [BitVec.toNat_append, ← Nat.shiftLeft_add_eq_or_of_lt m.isLt]
  rfl

theorem fits_unpack (b : BitVec Format.binary64.numBits) :
    Fits (UnpackedFloat.unpack Format.binary64 b) := by
  have mantissa : (unpackMantissa b).toNat < 2 ^ 52 := (unpackMantissa b).isLt
  unfold UnpackedFloat.unpack
  simp only
  split
  · split <;> trivial
  · split
    · next low =>
      split
      · trivial
      · refine ⟨Nat.lt_trans mantissa (by decide), ?_, .inr ?_⟩ <;> rw [low] <;> decide
    · next high =>
      have positive : (unpackExponent b).toNat ≠ 0 := fun h => high (BitVec.eq_of_toNat_eq h)
      simp only [Fits, toNat_leading, exponentBias_eq]
      omega

private theorem shiftRight_exact (m k : Nat) :
    ExtendedMantissa.ofMantissaAndAccuracy (m * 2 ^ k) .exact >>> k = ⟨m, false, false⟩ := by
  induction k generalizing m with
  | zero => simp [HShiftRight.hShiftRight, Nat.repeat, ExtendedMantissa.ofMantissaAndAccuracy]
  | succ k ih =>
    rw [show m * 2 ^ (k + 1) = 2 * m * 2 ^ k by ring]
    show ExtendedMantissa.shiftRightOne
      (ExtendedMantissa.ofMantissaAndAccuracy (2 * m * 2 ^ k) .exact >>> k) = _
    rw [ih (2 * m)]
    simp [ExtendedMantissa.shiftRightOne]

private theorem targetExponent_of_fits {s : Sign} {m : Nat} {e : Int} {h : 0 < m}
    (fits : Fits (.finite s m e h)) (k : Nat) :
    Format.binary64.targetExponent (totalExponent (m * 2 ^ k) (e - k)) = e := by
  obtain ⟨upper, least, lead⟩ := fits
  have log : (m * 2 ^ k).log2 = m.log2 + k := by
    have lower := Nat.log2_self_le (Nat.ne_of_gt h)
    have upper := Nat.lt_log2_self (n := m)
    have positive : 0 < 2 ^ k := Nat.two_pow_pos k
    rw [Nat.log2_eq_iff (Nat.mul_ne_zero (Nat.ne_of_gt h) (Nat.ne_of_gt positive)), pow_add,
      show m.log2 + k + 1 = m.log2 + 1 + k by omega, pow_add (2 : Nat) (m.log2 + 1)]
    exact ⟨Nat.mul_le_mul_right _ lower, Nat.mul_lt_mul_of_pos_right upper positive⟩
  have bound : m.log2 < 53 := (Nat.log2_lt (Nat.ne_of_gt h)).mpr upper
  rw [targetExponent_eq, totalExponent, log]
  obtain normal | low := lead
  · have := (Nat.le_log2 (Nat.ne_of_gt h)).mpr normal
    omega
  · omega

/-- A number of the format, written with `k` more zero bits, is rounded to itself. -/
theorem roundWithAccuracy_exact {s : Sign} {m : Nat} {e : Int} {h : 0 < m}
    (fits : Fits (.finite s m e h)) (k : Nat) :
    roundWithAccuracy Format.binary64 s (m * 2 ^ k) (e - k) .exact = .finite s m e h := by
  have first : shiftToTargetExponent Format.binary64 (m * 2 ^ k) (e - k) .exact =
      (⟨m, false, false⟩, e) := by
    unfold shiftToTargetExponent shiftToExponent
    rw [targetExponent_of_fits fits k]
    simp only [sub_sub_cancel, Int.toNat_natCast, shiftRight_exact]
    congr 1
    omega
  have second : shiftToTargetExponent Format.binary64 m e .exact = (⟨m, false, false⟩, e) := by
    have target := targetExponent_of_fits fits 0
    have shift := shiftRight_exact m 0
    simp only [pow_zero, mul_one, Nat.cast_zero, sub_zero] at target shift
    unfold shiftToTargetExponent shiftToExponent
    simp [target, shift]
  have rounded : ExtendedMantissa.roundedMantissa ⟨m, false, false⟩ = m := rfl
  unfold roundWithAccuracy
  simp only [first, rounded, second]
  rw [dif_neg (Nat.ne_of_gt h)]

def unpackedOne : UnpackedFloat := .finite .positive (2 ^ 52) (-52) (by decide)

private theorem mul_unpackedOne {u : UnpackedFloat} (fits : Fits u) :
    UnpackedFloat.mul Format.binary64 u unpackedOne = u := by
  cases u with
  | infinity s => cases s <;> rfl
  | notANumber => rfl
  | zero s => cases s <;> rfl
  | finite s m e h =>
    have sign : s * Sign.positive = s := by cases s <;> rfl
    show roundWithAccuracy _ (s * .positive) (m * 2 ^ 52) (e + -52) .exact = _
    rw [sign]
    exact roundWithAccuracy_exact fits 52

private theorem unpackedOne_mul {u : UnpackedFloat} (fits : Fits u) :
    UnpackedFloat.mul Format.binary64 unpackedOne u = u := by
  cases u with
  | infinity s => cases s <;> rfl
  | notANumber => rfl
  | zero s => cases s <;> rfl
  | finite s m e h =>
    have sign : Sign.positive * s = s := by cases s <;> rfl
    show roundWithAccuracy _ (.positive * s) (2 ^ 52 * m) (-52 + e) .exact = _
    rw [sign, mul_comm, add_comm]
    exact roundWithAccuracy_exact fits 52

/-- The dividend is extended by at least as many bits as the division takes. -/
private theorem divCore_one {s : Sign} {m : Nat} {e : Int} {h : 0 < m}
    (fits : Fits (.finite s m e h)) :
    ∃ k : Nat, divCore Format.binary64 m e (2 ^ 52) (-52) = (m * 2 ^ k, e - k, .exact) := by
  have below : Format.binary64.targetExponent
      (totalExponent m e - totalExponent (2 ^ 52) (-52)) ≤ e := by
    have log : m.log2 < 53 := (Nat.log2_lt (Nat.ne_of_gt h)).mpr fits.1
    have least := fits.2.1
    rw [targetExponent_eq, totalExponent, totalExponent, Nat.log2_two_pow]
    omega
  obtain ⟨k, target⟩ := Int.le.dest below
  have shift : (e - -52 - (e - k)).toNat = k + 52 := by omega
  refine ⟨k, ?_⟩
  unfold divCore
  rw [show Format.binary64.targetExponent
      (totalExponent m e - totalExponent (2 ^ 52) (-52)) = e - k by omega,
    min_eq_right (by omega)]
  simp only [shift, Nat.shiftLeft_eq, pow_add, ← mul_assoc]
  rw [Nat.mul_div_cancel _ (by decide), Nat.mul_mod_left]
  rfl

private theorem div_unpackedOne {u : UnpackedFloat} (fits : Fits u) :
    UnpackedFloat.div Format.binary64 u unpackedOne = u := by
  cases u with
  | infinity s => cases s <;> rfl
  | notANumber => rfl
  | zero s => cases s <;> rfl
  | finite s m e h =>
    have sign : s / Sign.positive = s := by cases s <;> rfl
    obtain ⟨k, core⟩ := divCore_one fits
    simp only [UnpackedFloat.div, unpackedOne, core, sign]
    exact roundWithAccuracy_exact fits k

private theorem sub_zero_unpacked {u : UnpackedFloat} {s : Sign}
    (distinct : u = .zero .negative → s = .positive) :
    UnpackedFloat.sub Format.binary64 u (.zero s) = u := by
  cases u with
  | infinity _ => rfl
  | notANumber => rfl
  | finite _ _ _ _ => rfl
  | zero r =>
    cases r with
    | positive => cases s <;> rfl
    | negative => rw [distinct rfl]; rfl

theorem pack_unpacked {x : Double} (number : x.unpacked.isNaN = false) :
    UnpackedFloat.pack Format.binary64 x.unpacked = x.bits.toBitVec := by
  unfold unpacked at number ⊢
  rw [UnpackedFloat.pack_unpack, if_neg]
  intro bits
  simp only [isNaNBits, decide_eq_true_eq] at bits
  simp only [UnpackedFloat.unpack, bits, if_true, if_false] at number
  cases number

theorem unpack_toFloat (x : Double) : x.toFloat.toModel.unpack = x.unpacked := by
  show UnpackedFloat.unpack Format.binary64
    (UnpackedFloat.pack Format.binary64 x.unpacked) = x.unpacked
  cases number : x.unpacked.isNaN with
  | false => exact congrArg _ (pack_unpacked number)
  | true =>
    rw [isNaN_iff.mp number]
    rfl

theorem ofFloat_pack {x : Double} (number : x.unpacked.isNaN = false) :
    ofFloat (.ofModel (.pack x.unpacked)) = x := by
  have bits := pack_unpacked number
  have counted : Float.isNaN (.ofModel (.pack x.unpacked)) = false := by
    show (UnpackedFloat.unpack Format.binary64
      (UnpackedFloat.pack Format.binary64 x.unpacked)).isNaN = false
    rw [bits]
    exact number
  unfold ofFloat
  rw [counted]
  show (⟨UInt64.ofBitVec (UnpackedFloat.pack Format.binary64 x.unpacked)⟩ : Double) = x
  rw [bits]

theorem eq_of_unpacked_eq {x y : Double} (number : x.unpacked.isNaN = false)
    (same : x.unpacked = y.unpacked) : x = y := by
  rw [← ofFloat_pack number, same, ofFloat_pack (same ▸ number)]

private theorem toNat_unpackExponent (b : BitVec Format.binary64.numBits) :
    (unpackExponent b).toNat = b.toNat / leadingBit % 2048 := by
  simp [unpackExponent, leadingBit, BitVec.extractLsb, BitVec.extractLsb',
    Nat.shiftRight_eq_div_pow]

private theorem toNat_unpackMantissa (b : BitVec Format.binary64.numBits) :
    (unpackMantissa b).toNat = b.toNat % leadingBit := by
  simp [unpackMantissa, leadingBit, BitVec.extractLsb, BitVec.extractLsb']

theorem isNaN_eq (x : Double) : x.isNaN = x.unpacked.isNaN := by
  have full : @unpackExponent Format.binary64 x.bits.toBitVec = -1#11 ↔
      x.exponentField = 2047 := by
    rw [← BitVec.toNat_inj, toNat_unpackExponent]
    rfl
  have bare : @unpackMantissa Format.binary64 x.bits.toBitVec = 0#52 ↔ x.fractionField = 0 := by
    rw [← BitVec.toNat_inj, toNat_unpackMantissa]
    rfl
  unfold isNaN unpacked UnpackedFloat.unpack
  by_cases top : x.exponentField = 2047
  · by_cases zero : x.fractionField = 0
    · simp [full.mpr top, bare.mpr zero, top, zero, UnpackedFloat.isNaN]
    · simp [full.mpr top, mt bare.mp zero, top, zero, UnpackedFloat.isNaN]
  · simp only [mt full.mp top, if_false]
    split
    · split <;> simp [top, UnpackedFloat.isNaN]
    · simp [top, UnpackedFloat.isNaN]

theorem quiet_eq {x : Double} (calm : x.isSignalling = false) : x.quiet = x := by
  simp [quiet, calm]

theorem isSignalling_quiet (x : Double) : x.quiet.isSignalling = false := by
  -- The fraction of a signalling NaN has room for the bit.
  unfold quiet
  split
  · next signals =>
    have low : x.bits.toNat % 4503599627370496 < 2251799813685248 :=
      of_decide_eq_true (Bool.and_eq_true_iff.mp signals).2
    have sum : (x.bits + .ofNat quietBit).toNat = x.bits.toNat + 2251799813685248 := by
      have bound := x.bits.toNat_lt
      rw [UInt64.toNat_add]
      show (x.bits.toNat + 2251799813685248) % 2 ^ 64 = _
      omega
    have high : ¬ (x.bits.toNat + 2251799813685248) % 4503599627370496 < 2251799813685248 := by
      omega
    rw [isSignalling, fractionField, sum, Bool.and_eq_false_iff]
    exact .inr (decide_eq_false high)
  · next calm => simpa using calm

theorem isSignalling_neg (x : Double) : (-x).isSignalling = x.isSignalling := by
  have bits : (-x).bits.toNat = x.bits.toNat ^^^ 2 ^ 63 := UInt64.toNat_xor ..
  have exponent : (-x).exponentField = x.exponentField := by
    rw [exponentField, exponentField, bits, show leadingBit = 2 ^ 52 from rfl,
      Nat.xor_div_two_pow, show 2048 = 2 ^ 11 from rfl, Nat.xor_mod_two_pow]
    exact Nat.xor_zero _
  have fraction : (-x).fractionField = x.fractionField := by
    rw [fractionField, fractionField, bits, show leadingBit = 2 ^ 52 from rfl,
      Nat.xor_mod_two_pow]
    exact Nat.xor_zero _
  rw [isSignalling, isSignalling, isNaN, isNaN, exponent, fraction]

theorem isSignalling_ofFloat (x : Float) : (ofFloat x).isSignalling = false := by
  unfold ofFloat
  split
  · decide
  · next number =>
    have counted : (⟨x.toBits⟩ : Double).unpacked.isNaN = false := Bool.eq_false_iff.mpr number
    rw [isSignalling, isNaN_eq, counted, Bool.false_and]

theorem isSignalling_lift₂ (f : Float → Float → Float) (x y : Double) :
    (lift₂ f x y).isSignalling = false := by
  unfold lift₂
  split
  · exact isSignalling_quiet x
  · split
    · exact isSignalling_quiet y
    · exact isSignalling_ofFloat _

theorem lift₂_eq_left {f : Float → Float → Float}
    {h : UnpackedFloat → UnpackedFloat → UnpackedFloat}
    (model : ∀ a b, f a b = .ofModel (.pack (h a.toModel.unpack b.toModel.unpack)))
    {x y : Double} (calm : x.isSignalling = false) (number : y.unpacked.isNaN = false)
    (same : h x.unpacked y.unpacked = x.unpacked) : lift₂ f x y = x := by
  unfold lift₂
  rw [isNaN_eq, isNaN_eq, number]
  cases kind : x.unpacked.isNaN with
  | true => exact quiet_eq calm
  | false =>
    simp only [Bool.false_eq_true, ↓reduceIte]
    rw [model, unpack_toFloat, unpack_toFloat, same, ofFloat_pack kind]

theorem lift₂_eq_right {f : Float → Float → Float}
    {h : UnpackedFloat → UnpackedFloat → UnpackedFloat}
    (model : ∀ a b, f a b = .ofModel (.pack (h a.toModel.unpack b.toModel.unpack)))
    {x y : Double} (calm : y.isSignalling = false) (number : x.unpacked.isNaN = false)
    (same : h x.unpacked y.unpacked = y.unpacked) : lift₂ f x y = y := by
  unfold lift₂
  rw [isNaN_eq, isNaN_eq, number]
  cases kind : y.unpacked.isNaN with
  | true => exact quiet_eq calm
  | false =>
    simp only [Bool.false_eq_true, ↓reduceIte]
    rw [model, unpack_toFloat, unpack_toFloat, same, ofFloat_pack kind]

theorem equals_eq (x y : Double) : x.equals y = x.unpacked.beq y.unpacked := by
  show x.toFloat.toModel.unpack.beq y.toFloat.toModel.unpack = _
  rw [unpack_toFloat, unpack_toFloat]

theorem eq_one_of_equals {x : Double} (h : x.equals 1.0 = true) : x.unpacked = unpackedOne := by
  rw [equals_eq, beq_iff_ne_notANumber_and_eq] at h
  obtain ⟨-, -, same | zeros | zeros⟩ := h
  · exact same
  · cases zeros.2
  · cases zeros.2

theorem exists_zero_of_equals {x : Double} (h : x.equals 0.0 = true) :
    ∃ s, x.unpacked = .zero s := by
  rw [equals_eq, beq_iff_ne_notANumber_and_eq] at h
  obtain ⟨-, -, same | zeros | zeros⟩ := h
  · exact ⟨_, same⟩
  · exact ⟨_, zeros.1⟩
  · exact ⟨_, zeros.1⟩

theorem mul_eq_left {x y : Double} (calm : x.isSignalling = false) (one : y.equals 1.0 = true) :
    x * y = x := by
  have unit := eq_one_of_equals one
  refine lift₂_eq_left (fun _ _ => rfl) calm (h := UnpackedFloat.mul Format.binary64) ?_ ?_
  · rw [unit]; rfl
  · rw [unit]; exact mul_unpackedOne (fits_unpack _)

theorem mul_eq_right {x y : Double} (calm : y.isSignalling = false) (one : x.equals 1.0 = true) :
    x * y = y := by
  have unit := eq_one_of_equals one
  refine lift₂_eq_right (fun _ _ => rfl) calm (h := UnpackedFloat.mul Format.binary64) ?_ ?_
  · rw [unit]; rfl
  · rw [unit]; exact unpackedOne_mul (fits_unpack _)

theorem div_eq_left {x y : Double} (calm : x.isSignalling = false) (one : y.equals 1.0 = true) :
    x / y = x := by
  have unit := eq_one_of_equals one
  refine lift₂_eq_left (fun _ _ => rfl) calm (h := UnpackedFloat.div Format.binary64) ?_ ?_
  · rw [unit]; rfl
  · rw [unit]; exact div_unpackedOne (fits_unpack _)

/-- Subtracting a zero does nothing, except that the negative zero taken from
itself is positive. -/
theorem sub_eq_left {x y : Double} (calm : x.isSignalling = false) (zero : y.equals 0.0 = true)
    (distinct : x = -0 → y ≠ -0) : x - y = x := by
  obtain ⟨s, kind⟩ := exists_zero_of_equals zero
  refine lift₂_eq_left (fun _ _ => rfl) calm (h := UnpackedFloat.sub Format.binary64) ?_ ?_
  · rw [kind]; rfl
  · rw [kind]
    apply sub_zero_unpacked
    intro negative
    cases s with
    | positive => rfl
    | negative =>
      have left : x = -0 := eq_of_unpacked_eq (by rw [negative]; rfl) (negative.trans rfl)
      have right : y = -0 := eq_of_unpacked_eq (by rw [kind]; rfl) (kind.trans rfl)
      exact absurd right (distinct left)

theorem negativeZero_sub_self : (-0 : Double) - -0 = 0 := by decide +kernel

theorem neg_neg (x : Double) : - -x = x := by
  show (⟨(x.bits ^^^ signMask) ^^^ signMask⟩ : Double) = x
  rw [UInt64.xor_assoc, UInt64.xor_self, UInt64.xor_zero]

end ExprCompiler.Double
