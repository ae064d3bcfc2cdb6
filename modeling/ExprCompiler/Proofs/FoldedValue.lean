import ExprCompiler.Proofs.Folding
import ExprCompiler.Proofs.QuietValues
import ExprCompiler.Symbol.Library

/-! What folding does to values. A signalling NaN apart, every reduction is exact but
one: the negative zero taken from itself is positive, and folding a subtraction of the
negative zero to its left operand loses that. The main statement says that folding keeps
all values below a root exactly when no such subtraction meets a negative zero. -/
namespace ExprCompiler

theorem isConstant_eq_true {c : Double} {x? : Option Double} (h : isConstant c x? = true) :
    ∃ x, x? = some x ∧ x.equals c = true := by
  cases x? with
  | none => simp [isConstant] at h
  | some x => exact ⟨x, rfl, h⟩

namespace BinaryOp

variable {op : BinaryOp} {x? y? : Option Double}

theorem reduce_eq_value {c : Double} (h : op.reduce x? y? = .value c) :
    ∃ x y, x? = some x ∧ y? = some y ∧ op.apply x y = c := by
  unfold reduce at h
  split at h
  · next x y => exact ⟨x, y, rfl, rfl, by simpa using h⟩
  · cases op <;> simp only [reduceCtorEq] at h <;> split_ifs at h

theorem reduce_eq_left (h : op.reduce x? y? = .left) :
    ∃ y, y? = some y ∧ ∀ x, x.isSignalling = false → (op = .sub → y = -0 → x ≠ -0) →
      op.apply x y = x := by
  unfold reduce at h
  split at h
  · cases h
  · cases op with
    | add => cases h
    | sub =>
      simp only at h
      split_ifs at h with zero
      obtain ⟨y, same, zero⟩ := isConstant_eq_true zero
      exact ⟨y, same, fun x calm safe =>
        Double.sub_eq_left calm zero fun hx hy => safe rfl hy hx⟩
    | mul =>
      simp only at h
      split_ifs at h with one
      obtain ⟨y, same, one⟩ := isConstant_eq_true one
      exact ⟨y, same, fun x calm _ => Double.mul_eq_left calm one⟩
    | div =>
      simp only at h
      split_ifs at h with one
      obtain ⟨y, same, one⟩ := isConstant_eq_true one
      exact ⟨y, same, fun x calm _ => Double.div_eq_left calm one⟩

theorem reduce_eq_right (h : op.reduce x? y? = .right) :
    ∃ x, x? = some x ∧ ∀ y, y.isSignalling = false → op.apply x y = y := by
  unfold reduce at h
  split at h
  · cases h
  · cases op <;> simp only [reduceCtorEq] at h <;> split_ifs at h
    next one =>
    obtain ⟨x, same, one⟩ := isConstant_eq_true one
    exact ⟨x, same, fun y calm => Double.mul_eq_right calm one⟩

theorem reduce_sub_negativeZero : sub.reduce none (some (-0)) = .left := by decide +kernel

end BinaryOp

namespace Expr

variable {t : SymbolTable} {b : Bindings}

theorem eq_const_of_constant? {e : Expr} {c : Double} (h : e.constant? = some c) :
    e = .const c := by
  cases e with
  | const x =>
    cases h
    rfl
  | var _ | neg _ | binary _ _ _ | call _ _ => cases h

theorem evaluate_of_constant {e : Expr} {c : Double} (h : e.constant? = some c) :
    e.evaluate t b = .ok c := by
  rw [eq_const_of_constant? h]
  rfl

theorem evaluate_foldNeg (e : Expr) : e.foldNeg.evaluate t b = (Expr.neg e).evaluate t b := by
  cases e with
  | neg a =>
    rw [evaluate_neg, evaluate_neg]
    show a.evaluate t b = _
    cases a.evaluate t b with
    | error err => rfl
    | ok x => exact congrArg Except.ok (Double.neg_neg x).symm
  | var _ | const _ | binary _ _ _ | call _ _ => rfl

/-- A subtraction that folding takes to do nothing although it turns the sign
of a zero. -/
def TurnsZero (t : SymbolTable) (b : Bindings) (op : BinaryOp) (left right : Expr) : Prop :=
  op = .sub ∧ left.constant? = none ∧ right.constant? = some (-0) ∧ left.evaluate t b = .ok (-0)

def Calm (t : SymbolTable) (b : Bindings) (e : Expr) : Prop :=
  ∀ x, e.evaluate t b = .ok x → x.isSignalling = false

theorem evaluate_foldBinary {op : BinaryOp} {left right : Expr} (calmLeft : left.Calm t b)
    (calmRight : right.Calm t b) (exact : ¬ TurnsZero t b op left right) :
    (foldBinary op left right).evaluate t b = (Expr.binary op left right).evaluate t b := by
  rw [evaluate_binary]
  unfold foldBinary
  split
  · next c reduced =>
    obtain ⟨x, y, hx, hy, value⟩ := BinaryOp.reduce_eq_value reduced
    rw [evaluate_of_constant hx, evaluate_of_constant hy]
    exact congrArg Except.ok value.symm
  · next reduced =>
    obtain ⟨y, hy, neutral⟩ := BinaryOp.reduce_eq_left reduced
    rw [evaluate_of_constant hy]
    have unknown : left.constant? = none := by
      cases hx : left.constant? with
      | none => rfl
      | some x =>
        rw [hx, hy] at reduced
        cases reduced
    cases value : left.evaluate t b with
    | error err => rfl
    | ok x =>
      have kept : op.apply x y = x := by
        apply neutral x (calmLeft x value)
        intro isSub negative same
        exact exact ⟨isSub, unknown, hy.trans (congrArg some negative), value.trans (by rw [same])⟩
      exact congrArg Except.ok kept.symm
  · next reduced =>
    obtain ⟨x, hx, neutral⟩ := BinaryOp.reduce_eq_right reduced
    rw [evaluate_of_constant hx]
    cases value : right.evaluate t b with
    | error err => rfl
    | ok y => exact congrArg Except.ok (neutral y (calmRight y value)).symm
  · rfl

end Expr

namespace Graph

def folded? (g : Graph) (i : Nat) : Option Double :=
  ((g.foldConstants i).1.node (g.foldConstants i).2).constant?

/-- A node that subtracts what folds to the negative zero from a negative zero
that only evaluation finds. -/
def LosesZero (g : Graph) (t : SymbolTable) (params : List Variable) (args : List Double)
    (i : Nat) : Prop :=
  ∃ a c, g.node i = .binary .sub a c ∧ g.folded? a = none ∧ g.folded? c = some (-0) ∧
    (g.evaluate a t params args).2 = .ok (-0)

theorem folded?_eq (g : Graph) (i : Nat) : g.folded? i = (g.expr i).foldConstants.constant? := by
  rw [folded?, constant?_node, expr_foldConstants]

theorem evaluate_foldConstants_node {g : Graph} {t : SymbolTable} {b : Bindings} {i : Nat}
    (calm : ∀ j ∈ (g.node i).operands, (g.expr j).Calm t b)
    (operands : ∀ j ∈ (g.node i).operands,
      (g.expr j).foldConstants.evaluate t b = (g.expr j).evaluate t b)
    (exact : ∀ op a c, g.node i = .binary op a c →
      ¬ Expr.TurnsZero t b op (g.expr a).foldConstants (g.expr c).foldConstants) :
    (g.expr i).foldConstants.evaluate t b = (g.expr i).evaluate t b := by
  rw [g.expr_eq_toExpr]
  cases kind : g.node i with
  | var v => rfl
  | const c => rfl
  | neg a =>
    have same := operands a (by simp [kind, Node.operands])
    rw [Node.toExpr, Expr.foldConstants_neg, Expr.evaluate_foldNeg, Expr.evaluate_neg, same,
      Expr.evaluate_neg]
  | binary op a c =>
    have first : a ∈ (g.node i).operands := by simp [kind, Node.operands]
    have second : c ∈ (g.node i).operands := by simp [kind, Node.operands]
    have left := operands a first
    have right := operands c second
    have calmLeft : (g.expr a).foldConstants.Calm t b :=
      fun x value => calm a first x (left ▸ value)
    have calmRight : (g.expr c).foldConstants.Calm t b :=
      fun x value => calm c second x (right ▸ value)
    rw [Node.toExpr, Expr.foldConstants_binary,
      Expr.evaluate_foldBinary calmLeft calmRight (exact op a c kind), Expr.evaluate_binary, left,
      right, Expr.evaluate_binary]
  | call name args =>
    have same : ∀ j ∈ args, (g.expr j).foldConstants.evaluate t b = (g.expr j).evaluate t b :=
      fun j hj => operands j (by simpa [kind, Node.operands] using hj)
    rw [Node.toExpr, Expr.foldConstants_call, Expr.evaluate_call, Expr.evaluate_call]
    simp only [List.map_map, List.length_map, Function.comp_def, List.map_congr_left same]

variable {g : Graph} {t : SymbolTable} {params : List Variable} {args : List Double}

theorem evaluate_foldConstants (g : Graph) (i : Nat) (t : SymbolTable) (params : List Variable)
    (args : List Double) :
    ((g.foldConstants i).1.evaluate (g.foldConstants i).2 t params args).2 =
      if args.length ≠ params.length then .error (.arityMismatch params.length args.length)
      else (g.expr i).foldConstants.evaluate t (Bindings.ofArgs params args) := by
  rw [evaluate_snd, expr_foldConstants]

theorem turnsZero_iff (counted : args.length = params.length) {i : Nat}
    {op : BinaryOp} {a c : Nat} (kind : g.node i = .binary op a c)
    (same : (g.expr a).foldConstants.evaluate t (.ofArgs params args) =
      (g.expr a).evaluate t (.ofArgs params args)) :
    Expr.TurnsZero t (.ofArgs params args) op (g.expr a).foldConstants (g.expr c).foldConstants ↔
      g.LosesZero t params args i := by
  have value : (g.evaluate a t params args).2 =
      (g.expr a).foldConstants.evaluate t (.ofArgs params args) := by
    rw [evaluate_snd, if_neg (by simp [counted]), same]
  constructor
  · rintro ⟨rfl, unknown, negative, met⟩
    exact ⟨a, c, kind, by rw [folded?_eq, unknown], by rw [folded?_eq, negative],
      by rw [value, met]⟩
  · rintro ⟨a', c', kind', unknown, negative, met⟩
    rw [kind] at kind'
    cases kind'
    exact ⟨rfl, by rw [← folded?_eq, unknown], by rw [← folded?_eq, negative], by rw [← value, met]⟩

theorem evaluate_foldConstants_of_no_loss (counted : args.length = params.length) (i : Nat)
    (calm : ∀ j, g.Reaches i j → (g.expr j).Calm t (.ofArgs params args))
    (safe : ∀ j, g.Reaches i j → ¬ g.LosesZero t params args j) :
    (g.expr i).foldConstants.evaluate t (.ofArgs params args) =
      (g.expr i).evaluate t (.ofArgs params args) := by
  induction i using g.node_induction with
  | step i ih =>
    have operands : ∀ j ∈ (g.node i).operands,
        (g.expr j).foldConstants.evaluate t (.ofArgs params args) =
          (g.expr j).evaluate t (.ofArgs params args) :=
      fun j hj => ih j hj (fun k below => calm k (below.head hj))
        fun k below => safe k (below.head hj)
    apply evaluate_foldConstants_node (fun j hj => calm j (.head hj (.refl g j))) operands
    intro op a c kind turned
    have same := operands a (by simp [kind, Node.operands])
    exact safe i (.refl g i) ((turnsZero_iff counted kind same).mp turned)

end Graph

/-- The same error, or the same number bit for bit, or no number both times. -/
def SameResult : Except Error Double → Except Error Double → Prop
  | .ok x, .ok y => x = y ∨ x.isNaN = true ∧ y.isNaN = true
  | .error e, .error e' => e = e'
  | _, _ => False

theorem SameResult.refl (r : Except Error Double) : SameResult r r := by
  cases r with
  | ok x => exact .inl rfl
  | error e => rfl

theorem SameResult.symm : ∀ {r r' : Except Error Double}, SameResult r r' → SameResult r' r
  | .ok _, .ok _, h => h.imp Eq.symm And.symm
  | .error _, .error _, h => Eq.symm h

theorem SameResult.eq_negativeZero {r : Except Error Double} (h : SameResult r (.ok (-0))) :
    r = .ok (-0) := by
  cases r with
  | error e => cases h
  | ok x =>
    obtain same | ⟨-, nan⟩ := h
    · rw [same]
    · exact absurd nan (by decide +kernel)

theorem not_sameResult_zeros : ¬ SameResult (.ok (-0)) (.ok 0) := by
  rintro (same | ⟨nan, -⟩)
  · exact absurd same (by decide +kernel)
  · exact absurd nan (by decide +kernel)

namespace Graph

/-- A lost zero shows in the value of the node that loses it, unless an operand
of that node changed before. -/
theorem not_sameResult_of_turnsZero {t : SymbolTable} {b : Bindings} {left right : Expr}
    (unknown : left.foldConstants.constant? = none)
    (negative : right.foldConstants.constant? = some (-0))
    (met : left.evaluate t b = .ok (-0))
    (sameLeft : SameResult (left.foldConstants.evaluate t b) (left.evaluate t b))
    (sameRight : SameResult (right.foldConstants.evaluate t b) (right.evaluate t b)) :
    ¬ SameResult ((Expr.binary .sub left right).foldConstants.evaluate t b)
      ((Expr.binary .sub left right).evaluate t b) := by
  have kept : (Expr.binary .sub left right).foldConstants = left.foldConstants := by
    rw [Expr.foldConstants_binary, Expr.foldBinary, unknown, negative,
      BinaryOp.reduce_sub_negativeZero]
  have foldedValue : left.foldConstants.evaluate t b = .ok (-0) := by
    rw [met] at sameLeft
    exact sameLeft.eq_negativeZero
  have rightValue : right.evaluate t b = .ok (-0) := by
    rw [Expr.evaluate_of_constant negative] at sameRight
    exact sameRight.symm.eq_negativeZero
  rw [kept, foldedValue, Expr.evaluate_binary, met, rightValue]
  show ¬ SameResult (.ok (-0)) (.ok ((-0 : Double) - -0))
  rw [Double.negativeZero_sub_self]
  exact not_sameResult_zeros

/-- As long as no value below a root is a signalling NaN, folding keeps what every node
there evaluates to exactly when none of them loses a zero. -/
theorem foldConstants_sameResult_iff (g : Graph) (root : Nat) (t : SymbolTable)
    (params : List Variable) (args : List Double)
    (calm : ∀ i x, g.Reaches root i → (g.evaluate i t params args).2 = .ok x →
      x.isSignalling = false) :
    (∀ i, g.Reaches root i →
      SameResult ((g.foldConstants i).1.evaluate (g.foldConstants i).2 t params args).2
        (g.evaluate i t params args).2) ↔
    ∀ i, g.Reaches root i → ¬ g.LosesZero t params args i := by
  by_cases counted : args.length = params.length
  · have folded := fun i => g.evaluate_foldConstants i t params args
    have plain := fun i => g.evaluate_snd i t params args
    simp only [counted, ne_eq, not_true_eq_false, if_false] at folded plain
    constructor
    · intro same i below lost
      obtain ⟨a, c, kind, unknown, negative, met⟩ := lost
      have sameLeft := same a (below.tail (by simp [kind, Node.operands]))
      have sameRight := same c (below.tail (by simp [kind, Node.operands]))
      have sameNode := same i below
      rw [folded, plain] at sameLeft sameRight sameNode
      rw [folded?_eq] at unknown negative
      rw [plain] at met
      rw [g.expr_eq_toExpr i, kind] at sameNode
      exact not_sameResult_of_turnsZero unknown negative met sameLeft sameRight sameNode
    · intro safe i below
      rw [folded, plain]
      have kept := evaluate_foldConstants_of_no_loss counted i
        (fun j hj x value => calm j x (below.trans hj) ((plain j).trans value))
        fun j hj => safe j (below.trans hj)
      rw [kept]
      exact .refl _
  · have folded := fun i => g.evaluate_foldConstants i t params args
    have plain := fun i => g.evaluate_snd i t params args
    simp only [counted, ne_eq, not_false_eq_true, if_true] at folded plain
    constructor
    · rintro - i - ⟨a, c, -, -, -, met⟩
      rw [plain] at met
      cases met
    · intro _ i _
      rw [folded, plain]
      exact .refl _

def magnitudeLessNegativeZero : Graph :=
  ⟨#[.var ⟨0, "x"⟩, .call "abs" [0], .const (-0), .binary .sub 1 2], by decide⟩

theorem magnitudeLessNegativeZero_sameResult :
    SameResult
      ((magnitudeLessNegativeZero.foldConstants 3).1.evaluate
        (magnitudeLessNegativeZero.foldConstants 3).2 (.builtinsOnly .standard) [⟨0, "x"⟩] [-0]).2
      (magnitudeLessNegativeZero.evaluate 3 (.builtinsOnly .standard) [⟨0, "x"⟩] [-0]).2 := by
  have value (i : Nat) : (magnitudeLessNegativeZero.evaluate i (.builtinsOnly .standard)
      [⟨0, "x"⟩] [-0]).2 = (magnitudeLessNegativeZero.expr i).evaluate (.builtinsOnly .standard)
        (.ofArgs [⟨0, "x"⟩] [-0]) := evaluate_snd ..
  apply (foldConstants_sameResult_iff magnitudeLessNegativeZero 3 (.builtinsOnly .standard)
    [⟨0, "x"⟩] [-0] ?_).mpr ?_ 3 (.refl _ 3)
  · intro i x below evaluated
    rw [value] at evaluated
    refine isSignalling_evaluate (by decide +kernel) ?_ ?_ evaluated
    · intro j c below' kind
      have bound := (below.trans below').le
      interval_cases j <;> cases kind
      decide +kernel
    · intro j name js f below' kind resolved
      have bound := (below.trans below').le
      interval_cases j <;> cases kind
      cases resolved
      exact Native.quiet_unary fun y calm => (Double.isSignalling_abs y).trans calm
  · rintro i below ⟨a, c, kind, -, -, met⟩
    have bound := below.le
    interval_cases i <;> cases kind
    exact absurd met (by decide +kernel)

def lessNegativeZero : Graph :=
  ⟨#[.var ⟨0, "x"⟩, .const (-0), .binary .sub 0 1], by decide⟩

/-- At the negative zero the difference is the positive zero, and what it folds
to, the variable alone, is not. -/
theorem lessNegativeZero_not_sameResult :
    ¬ SameResult
      ((lessNegativeZero.foldConstants 2).1.evaluate (lessNegativeZero.foldConstants 2).2
        (.builtinsOnly .standard) [⟨0, "x"⟩] [-0]).2
      (lessNegativeZero.evaluate 2 (.builtinsOnly .standard) [⟨0, "x"⟩] [-0]).2 := by
  have folded : ((lessNegativeZero.foldConstants 2).1.evaluate
      (lessNegativeZero.foldConstants 2).2 (.builtinsOnly .standard) [⟨0, "x"⟩] [-0]).2 =
        .ok (-0) := by
    decide +kernel
  have plain : (lessNegativeZero.evaluate 2 (.builtinsOnly .standard) [⟨0, "x"⟩] [-0]).2 =
      .ok 0 := by
    decide +kernel
  rw [folded, plain]
  exact not_sameResult_zeros

end Graph
end ExprCompiler
