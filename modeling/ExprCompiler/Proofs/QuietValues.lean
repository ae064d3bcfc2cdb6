import ExprCompiler.Proofs.Arithmetic
import ExprCompiler.Proofs.Evaluation

/-! Where signalling NaNs come from. Arithmetic makes none, so an evaluation meets one
only if an argument, a constant or a function that is called brings it in. -/
namespace ExprCompiler

open Double

theorem Double.isSignalling_abs (x : Double) : x.abs.isSignalling = x.isSignalling := by
  unfold abs
  split
  · exact isSignalling_neg x
  · rfl

theorem BinaryOp.isSignalling_apply (op : BinaryOp) (x y : Double) :
    (op.apply x y).isSignalling = false := by
  cases op <;> exact isSignalling_lift₂ _ x y

namespace Native

def Quiet (f : Native) : Prop :=
  ∀ xs, (∀ x ∈ xs, x.isSignalling = false) → (f.apply xs).isSignalling = false

theorem isSignalling_headD {xs : List Double} (calm : ∀ x ∈ xs, x.isSignalling = false) :
    (xs.headD 0).isSignalling = false := by
  cases xs with
  | nil => decide +kernel
  | cons x xs => exact calm x (by simp)

theorem quiet_unary {f : Double → Double}
    (calm : ∀ x, x.isSignalling = false → (f x).isSignalling = false) : (unary f).Quiet :=
  fun _ given => calm _ (isSignalling_headD given)

end Native

theorem exists_of_mem_firstError {f : α → Except ε β} {as : List α} {bs : List β}
    (values : firstError (as.map f) = .ok bs) : ∀ b ∈ bs, ∃ a ∈ as, f a = .ok b := by
  induction as generalizing bs with
  | nil =>
    cases values
    simp
  | cons a as ih =>
    cases first : f a with
    | error e => simp [firstError, first, bind, Except.bind] at values
    | ok b =>
      cases rest : firstError (as.map f) with
      | error e => simp [firstError, first, rest, bind, Except.bind] at values
      | ok bs' =>
        have whole : bs = b :: bs' := by
          simpa [firstError, first, rest, bind, Except.bind, pure, Except.pure, eq_comm]
            using values
        intro c hc
        rcases List.mem_cons.mp (whole ▸ hc) with rfl | later
        · exact ⟨a, by simp, first⟩
        · obtain ⟨a', there, value⟩ := ih rest c later
          exact ⟨a', by simp [there], value⟩

theorem Bindings.mem_of_value_ofArgs {params : List Variable} {args : List Double} {v : Variable}
    {x : Double} (value : (ofArgs params args).value v = .ok x) : x ∈ args := by
  unfold Bindings.value at value
  split at value
  · next y found =>
    cases value
    obtain ⟨before, after, split, -⟩ := List.lookup_eq_some_iff.mp found
    have bound : (v.id, x) ∈ ofArgs params args := List.mem_reverse.mp (by simp [split])
    exact (List.of_mem_zip bound).2
  · cases value

/-- An evaluation that starts from no signalling NaN meets none, if the functions that are
called make none. -/
theorem Graph.isSignalling_evaluate {g : Graph} {root : Nat} {t : SymbolTable}
    {params : List Variable} {args : List Double} (given : ∀ x ∈ args, x.isSignalling = false)
    (constants : ∀ i c, g.Reaches root i → g.node i = .const c → c.isSignalling = false)
    (functions : ∀ i name js f, g.Reaches root i → g.node i = .call name js →
      t.resolveCall name js.length = .ok f → f.native.Quiet)
    {x : Double} (value : (g.expr root).evaluate t (.ofArgs params args) = .ok x) :
    x.isSignalling = false := by
  induction root using g.node_induction generalizing x with
  | step i ih =>
    rw [g.evaluate_expr] at value
    cases checked : (g.node i).precheck t with
    | error e => simp [checked, bind, Except.bind] at value
    | ok _ =>
      cases below : firstError ((g.node i).operands.map fun j =>
          (g.expr j).evaluate t (.ofArgs params args)) with
      | error e => simp [checked, below, bind, Except.bind] at value
      | ok xs =>
        have calm : ∀ y ∈ xs, y.isSignalling = false := by
          intro y hy
          obtain ⟨j, hj, found⟩ := exists_of_mem_firstError below y hy
          exact ih j hj (fun k c reached => constants k c (reached.head hj))
            (fun k name js f reached => functions k name js f (reached.head hj)) found
        have own : (g.node i).value t (.ofArgs params args) xs = .ok x := by
          simpa [checked, below, bind, Except.bind] using value
        cases kind : g.node i with
        | var v =>
          rw [kind] at own
          exact given x (Bindings.mem_of_value_ofArgs own)
        | const c =>
          rw [kind] at own
          cases own
          exact constants i x (.refl g i) kind
        | neg a =>
          rw [kind] at own
          cases own
          rw [isSignalling_neg]
          exact Native.isSignalling_headD calm
        | binary op a c =>
          rw [kind] at own
          cases own
          exact op.isSignalling_apply _ _
        | call name js =>
          rw [kind, Node.value] at own
          cases resolved : t.resolveCall name js.length with
          | error e =>
            rw [resolved] at own
            cases own
          | ok f =>
            rw [resolved] at own
            cases own
            exact functions i name js f (.refl g i) kind resolved xs calm

end ExprCompiler
