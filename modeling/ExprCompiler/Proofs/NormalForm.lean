import ExprCompiler.Proofs.Unfolding

/-! The normal form of folding. A redex is what a rule of folding replaces. Folding
leaves none, not even one that a replacement below brought about, and it changes nothing
where there is none. So it keeps a root exactly when no node below is a redex, and
folding what is folded does nothing. -/
namespace ExprCompiler

/-- A negation of a constant or of a negation, arithmetic on two constants, and
arithmetic with a constant that is neutral on its side. -/
inductive Expr.Redex : Expr → Prop
  | negConst (c : Double) : Redex (.neg (.const c))
  | negNeg (a : Expr) : Redex (.neg (.neg a))
  | constants (op : BinaryOp) (x y : Double) : Redex (.binary op (.const x) (.const y))
  | subZero (a : Expr) {y : Double} (zero : y.equals 0.0 = true) :
      Redex (.binary .sub a (.const y))
  | mulOne (a : Expr) {y : Double} (one : y.equals 1.0 = true) : Redex (.binary .mul a (.const y))
  | oneMul {x : Double} (one : x.equals 1.0 = true) (b : Expr) : Redex (.binary .mul (.const x) b)
  | divOne (a : Expr) {y : Double} (one : y.equals 1.0 = true) : Redex (.binary .div a (.const y))

namespace Expr

theorem exists_const_of_isConstant {c : Double} {e : Expr} (h : isConstant c e.constant? = true) :
    ∃ x, e = .const x ∧ x.equals c = true := by
  obtain ⟨x, found, same⟩ := isConstant_eq_true h
  exact ⟨x, eq_const_of_constant? found, same⟩

theorem redex_binary_iff {op : BinaryOp} {a b : Expr} :
    (binary op a b).Redex ↔ op.reduce a.constant? b.constant? ≠ .none := by
  constructor
  · intro h
    cases h with
    | constants op x y => simp [BinaryOp.reduce, constant?]
    | subZero a zero | mulOne a zero | divOne a zero =>
      cases a.constant? <;> simp [BinaryOp.reduce, constant?, isConstant, zero]
    | oneMul one b =>
      cases b.constant? <;> simp [BinaryOp.reduce, constant?, isConstant, one]
  · intro h
    unfold BinaryOp.reduce at h
    split at h
    · next x y left right =>
      rw [eq_const_of_constant? left, eq_const_of_constant? right]
      exact .constants op x y
    · cases op with
      | add => exact absurd rfl h
      | sub =>
        obtain ⟨y, rfl, zero⟩ := exists_const_of_isConstant (by simpa using h)
        exact .subZero a zero
      | mul =>
        by_cases right : isConstant 1.0 b.constant? = true
        · obtain ⟨y, rfl, one⟩ := exists_const_of_isConstant right
          exact .mulOne a one
        · obtain ⟨x, rfl, one⟩ := exists_const_of_isConstant (by simpa [right] using h)
          exact .oneMul one b
      | div =>
        obtain ⟨y, rfl, one⟩ := exists_const_of_isConstant (by simpa using h)
        exact .divOne a one

inductive Normal : Expr → Prop
  | var (v : Variable) : Normal (.var v)
  | const (c : Double) : Normal (.const c)
  | neg {a : Expr} (operand : Normal a) (irreducible : ¬ (neg a).Redex) : Normal (.neg a)
  | binary {op : BinaryOp} {a b : Expr} (left : Normal a) (right : Normal b)
      (irreducible : ¬ (binary op a b).Redex) : Normal (.binary op a b)
  | call {name : String} {args : List Expr} (operands : ∀ a ∈ args, Normal a) :
      Normal (.call name args)

theorem Normal.irreducible {e : Expr} (h : e.Normal) : ¬ e.Redex := by
  cases h with
  | var _ | const _ | call _ => exact fun redex => nomatch redex
  | neg _ irreducible | binary _ _ irreducible => exact irreducible

theorem Normal.foldNeg {a : Expr} (h : a.Normal) : a.foldNeg.Normal := by
  -- The inner operand of a double negation is normal because the negation was.
  cases a with
  | const c => exact .const (-c)
  | neg b =>
    cases h with
    | neg operand _ => exact operand
  | var _ | binary _ _ _ | call _ _ => exact .neg h fun redex => nomatch redex

theorem Normal.foldBinary {op : BinaryOp} {a b : Expr} (left : a.Normal) (right : b.Normal) :
    (foldBinary op a b).Normal := by
  unfold Expr.foldBinary
  split
  · exact .const _
  · exact left
  · exact right
  · next irreducible => exact .binary left right fun redex => redex_binary_iff.mp redex irreducible

theorem normal_foldConstants (e : Expr) : e.foldConstants.Normal := by
  induction e with
  | var v => exact .var v
  | const c => exact .const c
  | neg a ih => exact ih.foldNeg
  | binary op a b left right => exact left.foldBinary right
  | call name args ih =>
    rw [foldConstants_call]
    apply Normal.call
    intro a member
    obtain ⟨b, inside, rfl⟩ := List.mem_map.mp member
    exact ih b inside

end Expr

namespace Graph

variable {g : Graph} {i j k : Nat}

theorem normal_operand (h : (g.expr i).Normal) (edge : j ∈ (g.node i).operands) :
    (g.expr j).Normal := by
  rw [g.expr_eq_toExpr i] at h
  cases kind : g.node i with
  | var _ | const _ => simp [kind, Node.operands] at edge
  | neg a =>
    rw [kind] at h edge
    cases h with
    | neg operand _ => rwa [List.mem_singleton.mp edge]
  | binary op a b =>
    rw [kind] at h edge
    cases h with
    | binary left right _ =>
      rcases List.mem_cons.mp edge with rfl | edge
      · exact left
      · rwa [List.mem_singleton.mp edge]
  | call name args =>
    rw [kind] at h edge
    cases h with
    | call operands => exact operands _ (List.mem_map_of_mem edge)

theorem normal_of_reaches (h : (g.expr i).Normal) (below : g.Reaches i k) : (g.expr k).Normal := by
  induction below with
  | refl => exact h
  | tail _ edge ih => exact normal_operand ih edge

end Graph

theorem Folding.step_start {g : Graph} {i : Nat} (irreducible : ¬ (g.expr i).Redex) :
    (start g).step i = start g := by
  have same : (start g).rebuild i = start g := if_pos (List.map_id _)
  rw [g.expr_eq_toExpr i] at irreducible
  unfold step
  split
  · rfl
  · rfl
  · next a kind =>
    rw [show g.node i = .neg a from kind, Node.toExpr, g.expr_eq_toExpr a] at irreducible
    split
    · next c operand =>
      rw [show g.node a = .const c from operand] at irreducible
      exact absurd (.negConst c) irreducible
    · next b operand =>
      rw [show g.node a = .neg b from operand] at irreducible
      exact absurd (.negNeg _) irreducible
    · exact same
  · next op a b kind =>
    rw [show g.node i = .binary op a b from kind, Node.toExpr, Expr.redex_binary_iff, not_not,
      ← g.constant?_node, ← g.constant?_node] at irreducible
    have none : op.reduce ((start g).graph.node ((start g).image a)).constant?
        ((start g).graph.node ((start g).image b)).constant? = .none := irreducible
    rw [none]
    exact same
  · exact same

theorem Folding.foldl_step_start {g : Graph} {is : List Nat}
    (irreducible : ∀ i ∈ is, ¬ (g.expr i).Redex) : is.foldl step (start g) = start g := by
  induction is with
  | nil => rfl
  | cons i is ih =>
    rw [List.foldl_cons, step_start (irreducible i (by simp))]
    exact ih fun j hj => irreducible j (by simp [hj])

namespace Graph

def Redex (g : Graph) (i : Nat) : Prop := (g.expr i).Redex

theorem foldConstants_of_irreducible {g : Graph} {root : Nat}
    (irreducible : ∀ k, g.Reaches root k → ¬ g.Redex k) : g.foldConstants root = (g, root) := by
  have unchanged : g.folding root = .start g :=
    Folding.foldl_step_start fun i hi => irreducible i (mem_postorder.mp hi)
  rw [foldConstants, unchanged]
  rfl

theorem normal_expr_foldConstants (g : Graph) (root : Nat) :
    ((g.foldConstants root).1.expr (g.foldConstants root).2).Normal := by
  rw [expr_foldConstants]
  exact Expr.normal_foldConstants _

theorem expr_root_foldConstants (g : Graph) (root : Nat) :
    (g.foldConstants root).1.expr root = g.expr root := by
  by_cases hr : root < g.size
  · exact (g.sound_folding hr).expr_eq hr
  · rw [g.foldConstants_of_ge (Nat.not_lt.mp hr)]

/-- No node below a folded root is a redex; a root is its own image exactly when no node
below it is a redex; and so a folded root is its own image, in the same graph. -/
theorem foldConstants_reaches_normal_form (g : Graph) (root : Nat) :
    (∀ k, (g.foldConstants root).1.Reaches (g.foldConstants root).2 k →
      ¬ (g.foldConstants root).1.Redex k) ∧
    ((g.foldConstants root).2 = root ↔ ∀ k, g.Reaches root k → ¬ g.Redex k) ∧
    (g.foldConstants root).1.foldConstants (g.foldConstants root).2 = g.foldConstants root := by
  have normal := g.normal_expr_foldConstants root
  have irreducible : ∀ k, (g.foldConstants root).1.Reaches (g.foldConstants root).2 k →
      ¬ (g.foldConstants root).1.Redex k :=
    fun k below => (normal_of_reaches normal below).irreducible
  refine ⟨irreducible, ?_, foldConstants_of_irreducible irreducible⟩
  constructor
  · intro same k below
    rw [same, g.expr_root_foldConstants] at normal
    exact (normal_of_reaches normal below).irreducible
  · intro none
    rw [foldConstants_of_irreducible none]

end Graph

/-- Zero added to `-(-(x * 1)) - 0`, in which every replacement brings about the next. -/
def neutralCascade : Graph :=
  ⟨#[.var ⟨0, "x"⟩, .const 1.0, .binary .mul 0 1, .neg 2, .neg 3, .const 0.0, .binary .sub 4 5,
    .binary .add 6 5], by decide⟩

theorem neutralCascade_reaches_normal_form :
    ∃ h top, neutralCascade.foldConstants 7 = (h, top) ∧ h.node top = .binary .add 0 5 ∧
      (∀ k, h.Reaches top k → ¬ h.Redex k) ∧
      (¬ ∀ k, neutralCascade.Reaches 7 k → ¬ neutralCascade.Redex k) ∧
      h.foldConstants top = (h, top) := by
  obtain ⟨irreducible, itself, again⟩ := neutralCascade.foldConstants_reaches_normal_form 7
  have moved : (neutralCascade.foldConstants 7).2 ≠ 7 := by decide +kernel
  have node : (neutralCascade.foldConstants 7).1.node (neutralCascade.foldConstants 7).2 =
      .binary .add 0 5 := by decide +kernel
  exact ⟨_, _, rfl, node, irreducible, mt itself.mpr moved, again⟩

end ExprCompiler
