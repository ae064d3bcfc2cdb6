import ExprCompiler.Proofs.Sites

/-! Evaluation by recursion with a memo. A node that has its value is not computed
again, and a node that came up while it was under way would be a cycle. Neither can
be told from the outside: a remembered value is that of the node's tree, and the
nodes under way are above the one that is computed. So the recursion ends as the tree
does, at the first place that is refused when the tree is read from left to right. -/
namespace ExprCompiler

inductive Halt where
  | cycle (node : Nat)
  | refused (e : Error)

structure Memo where
  value : Assignment (Option Double)
  underWay : List Nat

namespace Memo

def empty : Memo := ⟨fun _ => none, []⟩

def enter (m : Memo) (i : Nat) : Memo := { m with underWay := i :: m.underWay }

def leave (m : Memo) (i : Nat) (x : Double) : Memo :=
  ⟨m.value.set i (some x), m.underWay.erase i⟩

def computeAll (compute : α → Memo → Except Halt (Double × Memo)) :
    List α → Memo → Except Halt (List Double × Memo)
  | [], m => .ok ([], m)
  | a :: as, m => do
    let first ← compute a m
    let rest ← computeAll compute as first.2
    return (first.1 :: rest.1, rest.2)

theorem computeAll_map (compute : β → Memo → Except Halt (Double × Memo)) (f : α → β)
    (as : List α) (m : Memo) :
    computeAll (fun a => compute (f a)) as m = computeAll compute (as.map f) m := by
  induction as generalizing m with
  | nil => rfl
  | cons a as ih => simp only [List.map_cons, computeAll, ih]

end Memo

/-- The value of a node, from the memo or from the values of its operands. A call is
checked before its operands are looked at. -/
def Graph.evaluateMemo (g : Graph) (t : SymbolTable) (b : Bindings) (i : Nat) (m : Memo) :
    Except Halt (Double × Memo) :=
  match m.value i with
  | some x => .ok (x, m)
  | none =>
    if i ∈ m.underWay then .error (.cycle i)
    else do
      ((g.node i).precheck t).mapError .refused
      let below ← Memo.computeAll (fun j : { j // j ∈ (g.node i).operands } =>
        g.evaluateMemo t b j.1) (g.node i).operands.attach (m.enter i)
      let x ← ((g.node i).value t b below.1).mapError .refused
      return (x, below.2.leave i x)
termination_by i
decreasing_by exact g.lt_of_mem j.2

namespace Memo

/-- The recursion ends as a result says: it is refused alike, or it has the same value
and leaves a memo of which `P` holds. -/
def Yields (P : Memo → Prop) (r : Except Halt (α × Memo)) : Except Error α → Prop
  | .ok a => ∃ m, r = .ok (a, m) ∧ P m
  | .error e => r = .error (.refused e)

section Yields

variable {P Q : Memo → Prop} {r : Except Halt (α × Memo)}

theorem Yields.bind {expected : Except Error α} {f : α × Memo → Except Halt (β × Memo)}
    {h : α → Except Error β} (first : Yields P r expected)
    (second : ∀ a m, expected = .ok a → P m → Yields Q (f (a, m)) (h a)) :
    Yields Q (r >>= f) (expected >>= h) := by
  cases expected with
  | error e =>
    show (r >>= f) = .error (.refused e)
    rw [show r = .error (.refused e) from first]
    rfl
  | ok a =>
    obtain ⟨m, rfl, holds⟩ := first
    exact second a m rfl holds

theorem Yields.check {c : Except Error α} {f : α → Except Halt (β × Memo)}
    {h : α → Except Error β} (passed : ∀ a, c = .ok a → Yields Q (f a) (h a)) :
    Yields Q (c.mapError .refused >>= f) (c >>= h) := by
  cases c with
  | error e => rfl
  | ok a => exact passed a rfl

theorem Yields.last {c : Except Error α} {f : α → Memo} (holds : ∀ a, c = .ok a → Q (f a)) :
    Yields Q (c.mapError .refused >>= fun a => pure (a, f a)) c := by
  cases c with
  | error e => rfl
  | ok a => exact ⟨f a, rfl, holds a rfl⟩

end Yields

def Right (g : Graph) (t : SymbolTable) (b : Bindings) (m : Memo) : Prop :=
  ∀ j x, m.value j = some x → (g.expr j).evaluate t b = .ok x

def Above (g : Graph) (i : Nat) (m : Memo) : Prop :=
  ∀ k ∈ m.underWay, ∃ j ∈ (g.node k).operands, g.Reaches j i

variable {g : Graph} {t : SymbolTable} {b : Bindings} {i : Nat} {m : Memo}

theorem Above.notMem (h : m.Above g i) : i ∉ m.underWay := by
  intro open_
  obtain ⟨j, edge, below⟩ := h i open_
  exact absurd (g.lt_of_mem edge) (Nat.not_lt.mpr below.le)

theorem Above.enter (h : m.Above g i) {j : Nat} (edge : j ∈ (g.node i).operands) :
    (m.enter i).Above g j := by
  intro k open_
  rcases List.mem_cons.mp open_ with rfl | before
  · exact ⟨j, edge, .refl g j⟩
  · obtain ⟨l, first, below⟩ := h k before
    exact ⟨l, first, below.tail edge⟩

theorem Right.leave (h : m.Right g t b) {x : Double} (value : (g.expr i).evaluate t b = .ok x) :
    (m.leave i x).Right g t b := by
  intro j y known
  have known : m.value.set i (some x) j = some y := known
  by_cases same : j = i
  · rw [same, Assignment.set_self] at known
    rwa [same, ← Option.some.inj known]
  · rw [Assignment.set_of_ne _ _ same] at known
    exact h j y known

def Keeps (g : Graph) (t : SymbolTable) (b : Bindings) (way : List Nat) (m : Memo) : Prop :=
  m.Right g t b ∧ m.underWay = way

theorem yields_computeAll {way : List Nat} {js : List Nat}
    (each : ∀ j ∈ js, ∀ m, m.Keeps g t b way →
      Yields (Keeps g t b way) (g.evaluateMemo t b j m) ((g.expr j).evaluate t b))
    (keeps : m.Keeps g t b way) :
    Yields (Keeps g t b way) (computeAll (g.evaluateMemo t b) js m)
      (firstError (js.map fun j => (g.expr j).evaluate t b)) := by
  induction js generalizing m with
  | nil => exact ⟨m, rfl, keeps⟩
  | cons j js ih =>
    rw [List.map_cons, firstError, computeAll]
    refine (each j (by simp) m keeps).bind fun x m₁ _ keeps₁ => ?_
    refine (ih (fun k hk => each k (by simp [hk])) keeps₁).bind fun xs m₂ _ keeps₂ => ?_
    exact ⟨m₂, rfl, keeps₂⟩

theorem yields_evaluateMemo (i : Nat) (m : Memo) (right : m.Right g t b) (above : m.Above g i) :
    Yields (Keeps g t b m.underWay) (g.evaluateMemo t b i m) ((g.expr i).evaluate t b) := by
  induction i using g.node_induction generalizing m with
  | step i ih =>
    rw [Graph.evaluateMemo]
    cases known : m.value i with
    | some x =>
      rw [right i x known]
      exact ⟨m, rfl, right, rfl⟩
    | none =>
      simp only [if_neg above.notMem]
      rw [computeAll_map (g.evaluateMemo t b) Subtype.val, List.attach_map_subtype_val]
      have each (j : Nat) (edge : j ∈ (g.node i).operands) (m' : Memo)
          (keeps : m'.Keeps g t b (i :: m.underWay)) :
          Yields (Keeps g t b (i :: m.underWay)) (g.evaluateMemo t b j m')
            ((g.expr j).evaluate t b) := by
        have inside : m'.Above g j := fun k open_ => above.enter edge k (keeps.2 ▸ open_ :)
        simpa only [keeps.2] using ih j edge m' keeps.1 inside
      have entered : (m.enter i).Keeps g t b (i :: m.underWay) := ⟨right, rfl⟩
      -- The three parts: the check, the operands, and the value over theirs.
      have meaning := g.evaluate_expr t b i
      rw [meaning]
      refine .check fun _ admitted => ?_
      refine (yields_computeAll each entered).bind fun xs m₁ values keeps => ?_
      refine .last fun x value => ?_
      rw [admitted, values] at meaning
      refine ⟨keeps.1.leave (meaning.trans value), ?_⟩
      show m₁.underWay.erase i = m.underWay
      rw [keeps.2, List.erase_cons_head]

end Memo

def failure? : Except ε α → Option ε
  | .ok _ => none
  | .error e => some e

def Site.refusal? (t : SymbolTable) (b : Bindings) : Site → Option Error
  | .var v => failure? (b.value v)
  | .call name passed => failure? (t.resolveCall name passed)

theorem failure?_eq_some_iff {r : Except ε α} {e : ε} : failure? r = some e ↔ r = .error e := by
  cases r <;> simp [failure?]

theorem failure?_firstError (rs : List (Except ε α)) :
    failure? (firstError rs) = rs.findSome? failure? := by
  induction rs with
  | nil => rfl
  | cons r rs ih =>
    rw [List.findSome?_cons, ← ih, firstError]
    cases r with
    | error e => rfl
    | ok x => cases firstError rs <;> rfl

theorem findSome?_flatMap (f : β → Option γ) (g : α → List β) (as : List α) :
    (as.flatMap g).findSome? f = as.findSome? fun a => (g a).findSome? f := by
  induction as with
  | nil => rfl
  | cons a as ih =>
    rw [List.flatMap_cons, List.findSome?_append, ih, List.findSome?_cons]
    cases (g a).findSome? f <;> rfl

theorem findSome?_congr {f f' : α → Option β} {as : List α} (same : ∀ a ∈ as, f a = f' a) :
    as.findSome? f = as.findSome? f' := by
  induction as with
  | nil => rfl
  | cons a as ih =>
    rw [List.findSome?_cons, List.findSome?_cons, same a (by simp),
      ih fun a' ha => same a' (by simp [ha])]

theorem Expr.failure?_evaluate (t : SymbolTable) (b : Bindings) (e : Expr) :
    failure? (e.evaluate t b) = e.sites.findSome? (Site.refusal? t b) := by
  induction e with
  | var v =>
    show failure? (b.value v) = [Site.var v].findSome? (Site.refusal? t b)
    rw [List.findSome?_singleton, Site.refusal?]
  | const c => rfl
  | neg a ih =>
    rw [sites_neg, ← ih, evaluate_neg]
    cases a.evaluate t b <;> rfl
  | binary op left right ihLeft ihRight =>
    rw [sites_binary, List.findSome?_append, ← ihLeft, ← ihRight, evaluate_binary]
    cases left.evaluate t b with
    | error e => rfl
    | ok x => cases right.evaluate t b <;> rfl
  | call name args ih =>
    have below : failure? (firstError (args.map (·.evaluate t b))) =
        (args.flatMap sites).findSome? (Site.refusal? t b) := by
      rw [failure?_firstError, findSome?_flatMap, List.findSome?_map]
      exact findSome?_congr ih
    rw [sites_call, List.findSome?_cons, ← below, evaluate_call, Site.refusal?]
    cases t.resolveCall name args.length with
    | error e => rfl
    | ok f => cases firstError (args.map (·.evaluate t b)) <;> rfl

theorem Bindings.value?_ofArgs_last {before after : List Variable} {p : Variable}
    {args : List Double} (counted : args.length = (before ++ p :: after).length)
    (last : ∀ q ∈ after, q.id ≠ p.id) :
    (ofArgs (before ++ p :: after) args).value? p.id = args[before.length]? := by
  have inside : before.length < args.length := by simp [counted]
  have cut : args =
      args.take before.length ++ args[before.length] :: args.drop (before.length + 1) := by
    rw [List.cons_getElem_drop_succ, List.take_append_drop]
  have fits : (before.map (·.id)).length = (args.take before.length).length := by
    simp [Nat.min_eq_left (Nat.le_of_lt inside)]
  have later : ((after.map (·.id)).zip (args.drop (before.length + 1))).reverse.lookup p.id =
      none := by
    rw [List.lookup_eq_none_iff]
    rintro ⟨id, x⟩ bound
    obtain ⟨q, hq, rfl⟩ := List.mem_map.mp (List.of_mem_zip (List.mem_reverse.mp bound)).1
    simpa using (last q hq).symm
  have zipped : ofArgs (before ++ p :: after) args =
      (before.map (·.id)).zip (args.take before.length) ++ (p.id, args[before.length]) ::
        (after.map (·.id)).zip (args.drop (before.length + 1)) := by
    rw [ofArgs, List.map_append, List.map_cons]
    conv => lhs; rw [cut]
    rw [List.zip_append fits, List.zip_cons_cons]
  rw [value?, zipped, List.reverse_append, List.reverse_cons, List.append_assoc, List.lookup_append,
    later, List.getElem?_eq_getElem inside]
  simp

/-- Evaluation gives the value of the tree, and so does the recursion with a memo: it
never meets a cycle, remembers values of trees and leaves no node under way. It fails
with the refusal of the first place of the tree, a call standing before its arguments.
Of two arguments for one variable the last counts. Graphs with the same tree evaluate
alike, whatever they share. -/
theorem Graph.evaluate_follows_tree (g : Graph) (root : Nat) (t : SymbolTable)
    {params : List Variable} {args : List Double} (counted : args.length = params.length) :
    let b := Bindings.ofArgs params args
    (g.evaluate root t params args).2 = (g.expr root).evaluate t b ∧
    ((g.evaluateMemo t b root .empty).map (·.1) =
        (g.evaluate root t params args).2.mapError .refused ∧
      (∀ i, g.evaluateMemo t b root .empty ≠ .error (.cycle i)) ∧
      ∀ x m, g.evaluateMemo t b root .empty = .ok (x, m) → m.underWay = [] ∧
        ∀ i y, m.value i = some y → (g.expr i).evaluate t b = .ok y) ∧
    (∀ e, (g.evaluate root t params args).2 = .error e ↔
      (g.expr root).sites.findSome? (Site.refusal? t b) = some e) ∧
    (∀ before p after, params = before ++ p :: after → (∀ q ∈ after, q.id ≠ p.id) →
      b.value? p.id = args[before.length]?) ∧
    ∀ (h : Graph) (top : Nat), h.expr top = g.expr root →
      (h.evaluate top t params args).2 = (g.evaluate root t params args).2 := by
  intro b
  have tree (h : Graph) (top : Nat) :
      (h.evaluate top t params args).2 = (h.expr top).evaluate t b := by
    rw [evaluate_snd, if_neg (not_not.mpr counted)]
  have memo := Memo.yields_evaluateMemo (g := g) (t := t) (b := b) root .empty
    (fun j x known => by cases known) (fun k open_ => by cases open_)
  refine ⟨tree g root, ?_, fun e => ?_, ?_, fun h top same => ?_⟩
  · rw [tree]
    cases meaning : (g.expr root).evaluate t b with
    | error e =>
      rw [meaning] at memo
      have memo : g.evaluateMemo t b root .empty = .error (.refused e) := memo
      simp [memo, Except.map, Except.mapError]
    | ok x =>
      rw [meaning] at memo
      obtain ⟨m, memo, right, done⟩ := memo
      refine ⟨by rw [memo]; rfl, fun i => by simp [memo], fun y m' same => ?_⟩
      cases memo.symm.trans same
      exact ⟨done, right⟩
  · rw [tree, ← Expr.failure?_evaluate, failure?_eq_some_iff]
  · rintro before p after rfl last
    exact Bindings.value?_ofArgs_last counted last
  · rw [tree, tree, same]

def sharedGreater : Graph :=
  ⟨#[.var ⟨0, "x"⟩, .call "abs" [0], .var ⟨1, "y"⟩, .binary .add 1 2, .call "max" [1, 3],
    .call "max" [3]], by decide⟩

def unsharedGreater : Graph :=
  ⟨#[.var ⟨0, "x"⟩, .call "abs" [0], .var ⟨0, "x"⟩, .call "abs" [2], .var ⟨1, "y"⟩,
    .binary .add 1 4, .call "max" [3, 5]], by decide⟩

/-- The last argument for `x` counts, shared or not. The call with one argument is
refused for that, not for the variable without a value in its argument. -/
theorem greater_follows_tree :
    unsharedGreater.expr 6 = sharedGreater.expr 4 ∧
      (unsharedGreater.evaluate 6 (.builtinsOnly .standard)
        [⟨0, "x"⟩, ⟨1, "y"⟩, ⟨0, "x"⟩] [1, 2, -5]).2 = .ok 7 ∧
      (sharedGreater.evaluateMemo (.builtinsOnly .standard)
        (.ofArgs [⟨0, "x"⟩, ⟨1, "y"⟩, ⟨0, "x"⟩] [1, 2, -5]) 4 .empty).map (·.1) = .ok 7 ∧
      (sharedGreater.evaluate 5 (.builtinsOnly .standard) [⟨0, "x"⟩] [1]).2 =
        .error (.arityMismatch 2 1) := by
  have same : unsharedGreater.expr 6 = sharedGreater.expr 4 := by
    simp [Graph.expr_eq_toExpr, unsharedGreater, sharedGreater, Graph.node, Node.toExpr]
  have value : (sharedGreater.evaluate 4 (.builtinsOnly .standard) [⟨0, "x"⟩, ⟨1, "y"⟩, ⟨0, "x"⟩]
      [1, 2, -5]).2 = .ok 7 := by decide +kernel
  have first : (sharedGreater.expr 5).sites.findSome? (Site.refusal? (.builtinsOnly .standard)
      (.ofArgs [⟨0, "x"⟩] [1])) = some (.arityMismatch 2 1) := by decide +kernel
  obtain ⟨-, ⟨memo, -⟩, -, -, shared⟩ := sharedGreater.evaluate_follows_tree 4
    (.builtinsOnly .standard)
    (show [(1 : Double), 2, -5].length = [Variable.mk 0 "x", ⟨1, "y"⟩, ⟨0, "x"⟩].length from rfl)
  obtain ⟨-, -, refused, -⟩ := sharedGreater.evaluate_follows_tree 5 (.builtinsOnly .standard)
    (show [(1 : Double)].length = [Variable.mk 0 "x"].length from rfl)
  refine ⟨same, (shared unsharedGreater 6 same).trans value, ?_, (refused _).mpr first⟩
  rw [memo, value]
  rfl

end ExprCompiler
