import ExprCompiler.Code.Lowering
import ExprCompiler.Proofs.FoldedValue

/-! The places of a tree at which lowering can fail: its variables and its
calls, in pre-order. A place is judged by the places before it, because the
first call of a name fixes how many arguments the name takes. -/
namespace ExprCompiler

inductive Site where
  | var (v : Variable)
  | call (name : String) (passed : Nat)
deriving DecidableEq

def Expr.sites : Expr → List Site :=
  Expr.fold
    { var := fun v => [.var v]
      const := fun _ => []
      neg := id
      binary := fun _ a b => a ++ b
      call := fun name args => .call name args.length :: args.flatten }

def Node.sites : Node → List Site
  | .var v => [.var v]
  | .call name args => [.call name args.length]
  | _ => []

theorem Expr.sites_call (name : String) (args : List Expr) :
    (Expr.call name args).sites = .call name args.length :: args.flatMap Expr.sites := by
  simp only [sites, fold_call, List.length_map, List.flatMap_def]

theorem Graph.sites_expr (g : Graph) (i : Nat) :
    (g.expr i).sites =
      (g.node i).sites ++ (g.node i).operands.flatMap fun j => (g.expr j).sites := by
  rw [g.expr_eq_toExpr]
  cases g.node i with
  | var v => rfl
  | const c => rfl
  | neg a => simp [Node.toExpr, Node.sites, Node.operands, Expr.sites, Expr.fold]
  | binary op a b => simp [Node.toExpr, Node.sites, Node.operands, Expr.sites, Expr.fold]
  | call name args =>
    simp [Node.toExpr, Node.sites, Node.operands, Expr.sites_call, List.flatMap_map]

theorem Graph.mem_sites_iff (g : Graph) (i : Nat) (x : Site) :
    x ∈ (g.expr i).sites ↔ ∃ j, g.Reaches i j ∧ x ∈ (g.node j).sites := by
  induction i using g.node_induction with
  | step i ih =>
    rw [g.sites_expr, List.mem_append, List.mem_flatMap]
    constructor
    · rintro (own | ⟨j, hj, inside⟩)
      · exact ⟨i, .refl g i, own⟩
      · obtain ⟨k, below, own⟩ := (ih j hj).mp inside
        exact ⟨k, below.head hj, own⟩
    · rintro ⟨k, below, own⟩
      cases below.cases with
      | inl same => exact .inl (same ▸ own)
      | inr step =>
        obtain ⟨j, hj, below⟩ := step
        exact .inr ⟨j, hj, (ih j hj).mpr ⟨k, below, own⟩⟩

namespace Expr

theorem sites_of_constant {e : Expr} {c : Double} (h : e.constant? = some c) : e.sites = [] := by
  rw [eq_const_of_constant? h]
  rfl

theorem sites_neg (e : Expr) : (neg e).sites = e.sites := rfl

theorem sites_binary (op : BinaryOp) (a b : Expr) :
    (binary op a b).sites = a.sites ++ b.sites := rfl

theorem sites_foldNeg (e : Expr) : e.foldNeg.sites = e.sites := by
  cases e <;> rfl

theorem sites_foldBinary (op : BinaryOp) (a b : Expr) :
    (foldBinary op a b).sites = a.sites ++ b.sites := by
  unfold foldBinary
  split
  · next c reduced =>
    obtain ⟨x, y, hx, hy, -⟩ := BinaryOp.reduce_eq_value reduced
    rw [sites_of_constant hx, sites_of_constant hy]
    rfl
  · next reduced =>
    obtain ⟨y, hy, -⟩ := BinaryOp.reduce_eq_left reduced
    rw [sites_of_constant hy, List.append_nil]
  · next reduced =>
    obtain ⟨x, hx, -⟩ := BinaryOp.reduce_eq_right reduced
    rw [sites_of_constant hx, List.nil_append]
  · rfl

end Expr

/-- Folding drops nothing but constants and signs. -/
theorem Graph.sites_foldConstants (g : Graph) (i : Nat) :
    (g.expr i).foldConstants.sites = (g.expr i).sites := by
  induction i using g.node_induction with
  | step i ih =>
    rw [g.expr_eq_toExpr]
    cases kind : g.node i with
    | var v => rfl
    | const c => rfl
    | neg a =>
      rw [Node.toExpr, Expr.foldConstants_neg, Expr.sites_foldNeg,
        ih a (by simp [kind, Node.operands]), Expr.sites_neg]
    | binary op a b =>
      rw [Node.toExpr, Expr.foldConstants_binary, Expr.sites_foldBinary,
        ih a (by simp [kind, Node.operands]), ih b (by simp [kind, Node.operands]),
        Expr.sites_binary]
    | call name args =>
      have same : ∀ j ∈ args, (g.expr j).foldConstants.sites = (g.expr j).sites :=
        fun j hj => ih j (by simpa [kind, Node.operands] using hj)
      rw [Node.toExpr, Expr.foldConstants_call, Expr.sites_call, Expr.sites_call]
      simp only [List.map_map, List.length_map, Function.comp_def, List.flatMap_def,
        List.map_congr_left same]

namespace Site

def declared? (earlier : List Site) (name : String) : Option Nat :=
  earlier.findSome? fun
    | .call n passed => if n = name then some passed else none
    | .var _ => none

def conflict? (passed : Nat) (fixed : Option Nat) (fault : Nat → LoweringFault) : Option Error :=
  (fixed.filter (· ≠ passed)).map fun n => .lowering (fault n)

def fault? (t : SymbolTable) (params : List Variable) (earlier : List Site) : Site → Option Error
  | .var v => if v.id ∈ params.map (·.id) then none else some (.unboundVariable v.name)
  | .call name passed =>
    if passed < 1 ∨ 2 < passed then some (.lowering (.unsupportedCall name passed))
    else
      (conflict? passed ((t.known? name).map (·.arity)) fun known =>
        .knownArity name known passed).or
      (conflict? passed (declared? earlier name) fun first => .declaredArity name first passed)

inductive Faultless (t : SymbolTable) (params : List Variable) : List Site → Prop
  | nil : Faultless t params []
  | concat {earlier : List Site} {x : Site} (before : Faultless t params earlier)
      (sound : x.fault? t params earlier = none) : Faultless t params (earlier ++ [x])

variable {t : SymbolTable} {params : List Variable} {earlier : List Site}

theorem declared?_append (xs ys : List Site) (name : String) :
    declared? (xs ++ ys) name = (declared? xs name).or (declared? ys name) :=
  List.findSome?_append

theorem mem_of_declared? {name : String} {n : Nat} (h : declared? earlier name = some n) :
    .call name n ∈ earlier := by
  obtain ⟨x, hx, found⟩ := List.exists_of_findSome?_eq_some h
  cases x with
  | var v => cases found
  | call other passed =>
    simp only [Option.ite_none_right_eq_some, Option.some.injEq] at found
    rwa [found.1, found.2] at hx

theorem conflict?_eq_none_iff {passed : Nat} {fixed : Option Nat} {fault : Nat → LoweringFault} :
    conflict? passed fixed fault = none ↔ ∀ n, fixed = some n → n = passed := by
  cases fixed <;> simp [conflict?]

theorem conflict?_eq_some_iff {passed : Nat} {fixed : Option Nat} {fault : Nat → LoweringFault}
    {e : Error} : conflict? passed fixed fault = some e ↔
      ∃ n, fixed = some n ∧ n ≠ passed ∧ .lowering (fault n) = e := by
  cases fixed <;> simp [conflict?]

theorem fault?_call_eq_none_iff {name : String} {passed : Nat} :
    (call name passed).fault? t params earlier = none ↔
      1 ≤ passed ∧ passed ≤ 2 ∧ (∀ f, t.known? name = some f → f.arity = passed) ∧
        ∀ n, declared? earlier name = some n → n = passed := by
  rw [fault?]
  split
  · next unsupported =>
    simp only [reduceCtorEq, false_iff]
    omega
  · next supported =>
    rw [Option.or_eq_none_iff, conflict?_eq_none_iff, conflict?_eq_none_iff]
    simp only [Option.map_eq_some_iff, forall_exists_index, and_imp]
    constructor
    · rintro ⟨known, first⟩
      exact ⟨by omega, by omega, fun f hf => known _ f hf rfl, first⟩
    · rintro ⟨-, -, known, first⟩
      exact ⟨fun n f hf same => same ▸ known f hf, first⟩

theorem declared?_concat_call (name : String) (passed : Nat) :
    declared? (earlier ++ [call name passed]) name = (declared? earlier name).or (some passed) := by
  rw [declared?_append]
  simp [declared?]

theorem fault?_var_eq_none_iff {v : Variable} :
    (var v).fault? t params earlier = none ↔ v.id ∈ params.map (·.id) := by
  rw [fault?]
  split <;> simp_all

theorem Faultless.declared?_eq (h : Faultless t params earlier) {name : String} {passed : Nat}
    (called : call name passed ∈ earlier) : declared? earlier name = some passed := by
  induction h with
  | nil => simp at called
  | @concat earlier x _ sound ih =>
    cases List.mem_append.mp called with
    | inl before => rw [declared?_append, ih before, Option.some_or]
    | inr last =>
      rw [← List.mem_singleton.mp last] at sound ⊢
      rw [declared?_concat_call]
      cases first : declared? earlier name with
      | none => rfl
      | some n =>
        obtain ⟨-, -, -, same⟩ := fault?_call_eq_none_iff.mp sound
        rw [same n first, Option.some_or]

theorem Faultless.fault?_of_mem (h : Faultless t params earlier) {x : Site} (hx : x ∈ earlier) :
    x.fault? t params earlier = none := by
  induction h with
  | nil => simp at hx
  | @concat earlier y before sound ih =>
    have whole := before.concat sound
    cases x with
    | var v =>
      rw [fault?_var_eq_none_iff]
      cases List.mem_append.mp hx with
      | inl inside => exact fault?_var_eq_none_iff.mp (ih inside)
      | inr last => exact fault?_var_eq_none_iff.mp (List.mem_singleton.mp last ▸ sound)
    | call name passed =>
      have first := whole.declared?_eq hx
      have alone : 1 ≤ passed ∧ passed ≤ 2 ∧ ∀ f, t.known? name = some f → f.arity = passed := by
        cases List.mem_append.mp hx with
        | inl inside =>
          obtain ⟨one, two, known, -⟩ := fault?_call_eq_none_iff.mp (ih inside)
          exact ⟨one, two, known⟩
        | inr last =>
          rw [← List.mem_singleton.mp last] at sound
          obtain ⟨one, two, known, -⟩ := fault?_call_eq_none_iff.mp sound
          exact ⟨one, two, known⟩
      refine fault?_call_eq_none_iff.mpr ⟨alone.1, alone.2.1, alone.2.2, fun n hn => ?_⟩
      rw [first] at hn
      exact (Option.some.inj hn).symm

theorem faultless_concat_iff {x : Site} :
    Faultless t params (earlier ++ [x]) ↔
      Faultless t params earlier ∧ x.fault? t params earlier = none := by
  constructor
  · intro h
    generalize whole : earlier ++ [x] = ys at h
    cases h with
    | nil => simp at whole
    | concat before sound =>
      obtain ⟨rfl, same⟩ := List.append_inj' whole rfl
      cases same
      exact ⟨before, sound⟩
  · rintro ⟨before, sound⟩
    exact before.concat sound

theorem Faultless.of_prefix {xs : List Site} (h : Faultless t params earlier)
    (start : xs <+: earlier) : Faultless t params xs := by
  induction h with
  | nil => rw [List.prefix_nil.mp start]; exact .nil
  | concat before sound ih =>
    cases List.prefix_concat_iff.mp start with
    | inl whole => exact whole ▸ before.concat sound
    | inr shorter => exact ih shorter

theorem Faultless.append_of_subset (h : Faultless t params earlier) {xs : List Site}
    (known : ∀ x ∈ xs, x ∈ earlier) : Faultless t params (earlier ++ xs) := by
  induction xs generalizing earlier with
  | nil => simpa using h
  | cons x xs ih =>
    rw [List.append_cons]
    apply ih (h.concat (h.fault?_of_mem (known x (by simp))))
    exact fun y hy => by simp [known y (by simp [hy])]

theorem Faultless.declared?_append_of_subset (h : Faultless t params earlier) {xs : List Site}
    (known : ∀ x ∈ xs, x ∈ earlier) (name : String) :
    declared? (earlier ++ xs) name = declared? earlier name := by
  rw [declared?_append]
  cases first : declared? earlier name with
  | some n => rfl
  | none =>
    cases later : declared? xs name with
    | none => rfl
    | some n =>
      have called := h.declared?_eq (known _ (mem_of_declared? later))
      rw [first] at called
      cases called

def check (t : SymbolTable) (params : List Variable) (earlier : List Site) (x : Site) :
    Except Error (List Site) :=
  match x.fault? t params earlier with
  | some e => .error e
  | none => .ok (earlier ++ [x])

theorem check_of_none {x : Site} (sound : x.fault? t params earlier = none) :
    check t params earlier x = .ok (earlier ++ [x]) := by
  rw [check, sound]

theorem check_of_some {x : Site} {e : Error} (wrong : x.fault? t params earlier = some e) :
    check t params earlier x = .error e := by
  rw [check, wrong]

theorem foldlM_check_of_faultless {xs : List Site} (h : Faultless t params (earlier ++ xs)) :
    xs.foldlM (check t params) earlier = .ok (earlier ++ xs) := by
  induction xs generalizing earlier with
  | nil => simp [pure, Except.pure]
  | cons x xs ih =>
    rw [List.append_cons] at h ⊢
    have sound := (faultless_concat_iff.mp (h.of_prefix (List.prefix_append _ _))).2
    rw [List.foldlM_cons, check_of_none sound]
    exact ih h

theorem faultless_of_foldlM_check (before : Faultless t params earlier) {xs later : List Site}
    (run : xs.foldlM (check t params) earlier = .ok later) :
    later = earlier ++ xs ∧ Faultless t params later := by
  induction xs generalizing earlier with
  | nil =>
    cases run
    exact ⟨by simp, before⟩
  | cons x xs ih =>
    rw [List.foldlM_cons] at run
    cases judged : x.fault? t params earlier with
    | some e =>
      rw [check_of_some judged] at run
      cases run
    | none =>
      rw [check_of_none judged] at run
      simpa using ih (before.concat judged) run

theorem exists_fault_of_foldlM_check (before : Faultless t params earlier) {xs : List Site}
    {e : Error} (run : xs.foldlM (check t params) earlier = .error e) :
    ∃ pre x post, xs = pre ++ x :: post ∧ Faultless t params (earlier ++ pre) ∧
      x.fault? t params (earlier ++ pre) = some e := by
  induction xs generalizing earlier with
  | nil => cases run
  | cons x xs ih =>
    rw [List.foldlM_cons] at run
    cases judged : x.fault? t params earlier with
    | some e' =>
      rw [check_of_some judged] at run
      cases run
      exact ⟨[], x, xs, rfl, by simpa using before, by simpa using judged⟩
    | none =>
      rw [check_of_none judged] at run
      obtain ⟨pre, y, post, rfl, clear, wrong⟩ := ih (before.concat judged) run
      exact ⟨x :: pre, y, post, rfl, by simpa using clear, by simpa using wrong⟩

theorem foldlM_check_nil_of_faultless {xs : List Site} (clear : Faultless t params xs) :
    xs.foldlM (check t params) [] = .ok xs :=
  foldlM_check_of_faultless (show Faultless t params ([] ++ xs) from clear)

theorem foldlM_check_eq_error_iff {xs : List Site} {e : Error} :
    xs.foldlM (check t params) [] = .error e ↔
      ∃ before x after, xs = before ++ x :: after ∧ Faultless t params before ∧
        x.fault? t params before = some e := by
  constructor
  · intro run
    simpa using exists_fault_of_foldlM_check .nil run
  · rintro ⟨before, x, after, rfl, clear, wrong⟩
    rw [List.foldlM_append, foldlM_check_nil_of_faultless clear]
    show (x :: after).foldlM (check t params) before = _
    rw [List.foldlM_cons, check_of_some wrong]
    rfl

/-- A list without a fault, by what all its places satisfy. -/
theorem faultless_iff {xs : List Site} :
    Faultless t params xs ↔
      (∀ v, var v ∈ xs → v.id ∈ params.map (·.id)) ∧
      (∀ name n, call name n ∈ xs →
        1 ≤ n ∧ n ≤ 2 ∧ ∀ f, t.known? name = some f → f.arity = n) ∧
      ∀ name n m, call name n ∈ xs → call name m ∈ xs → n = m := by
  constructor
  · intro clear
    refine ⟨fun v hv => ?_, fun name n called => ?_, fun name n m first second => ?_⟩
    · exact fault?_var_eq_none_iff.mp (clear.fault?_of_mem hv)
    · obtain ⟨one, two, known, -⟩ := fault?_call_eq_none_iff.mp (clear.fault?_of_mem called)
      exact ⟨one, two, known⟩
    · have same := clear.declared?_eq first
      rw [clear.declared?_eq second] at same
      exact (Option.some.inj same).symm
  · rintro ⟨bound, supported, agreed⟩
    cases run : xs.foldlM (check t params) [] with
    | ok later =>
      obtain ⟨rfl, clear⟩ := faultless_of_foldlM_check .nil run
      exact clear
    | error e =>
      obtain ⟨before, x, after, rfl, -, wrong⟩ := foldlM_check_eq_error_iff.mp run
      have sound : x.fault? t params before = none := by
        cases x with
        | var v => exact fault?_var_eq_none_iff.mpr (bound v (by simp))
        | call name n =>
          obtain ⟨one, two, known⟩ := supported name n (by simp)
          refine fault?_call_eq_none_iff.mpr ⟨one, two, known, fun m first => ?_⟩
          exact agreed name m n (by simp [mem_of_declared? first]) (by simp)
      rw [sound] at wrong
      cases wrong

end Site
end ExprCompiler
