import ExprCompiler.Graph.Walk
import Mathlib.Logic.Relation

/-! The order of a walk. `Walks` describes the visits of a walk by their shape,
so that what holds of every walk is shown by induction on it. A node is entered
at most once, and never while it is open; it is left after its operands were
left; and the nodes that are left are those below the root. -/
namespace ExprCompiler

namespace Graph

def Reaches (g : Graph) : Nat → Nat → Prop :=
  Relation.ReflTransGen fun i j => j ∈ (g.node i).operands

theorem Reaches.refl (g : Graph) (i : Nat) : g.Reaches i i := Relation.ReflTransGen.refl

theorem Reaches.head {g : Graph} {i j k : Nat} (edge : j ∈ (g.node i).operands)
    (below : g.Reaches j k) : g.Reaches i k :=
  Relation.ReflTransGen.head edge below

theorem Reaches.tail {g : Graph} {i j k : Nat} (above : g.Reaches i j)
    (edge : k ∈ (g.node j).operands) : g.Reaches i k :=
  Relation.ReflTransGen.tail above edge

theorem Reaches.trans {g : Graph} {i j k : Nat} (above : g.Reaches i j)
    (below : g.Reaches j k) : g.Reaches i k :=
  Relation.ReflTransGen.trans above below

theorem Reaches.cases {g : Graph} {i k : Nat} (h : g.Reaches i k) :
    i = k ∨ ∃ j ∈ (g.node i).operands, g.Reaches j k := by
  obtain same | ⟨j, edge, below⟩ := Relation.ReflTransGen.cases_head h
  · exact .inl same
  · exact .inr ⟨j, edge, below⟩

theorem Reaches.le {g : Graph} {i k : Nat} (h : g.Reaches i k) : k ≤ i := by
  induction h with
  | refl => exact Nat.le_refl i
  | tail _ edge ih => exact Nat.le_trans (Nat.le_of_lt (g.lt_of_mem edge)) ih

theorem node_induction (g : Graph) {P : Nat → Prop}
    (step : ∀ i, (∀ j ∈ (g.node i).operands, P j) → P i) (i : Nat) : P i := by
  induction i using Nat.strongRecOn with
  | ind i ih => exact step i fun j hj => ih j (g.lt_of_mem hj)

/-- After the visits `past`, walking the nodes of a list one after the other
makes the visits `new`. -/
inductive Walks (g : Graph) : (past : List Visit) → List Nat → (new : List Visit) → Prop
  | nil {past : List Visit} : Walks g past [] []
  | again {past : List Visit} {i : Nat} {is : List Nat} {rest : List Visit}
      (done : .leave i ∈ past) (others : Walks g (past ++ [.again i]) is rest) :
      Walks g past (i :: is) (.again i :: rest)
  | enter {past : List Visit} {i : Nat} {is : List Nat} {below rest : List Visit}
      (fresh : .leave i ∉ past)
      (operands : Walks g (past ++ [.enter i]) (g.node i).operands below)
      (others : Walks g (past ++ .enter i :: (below ++ [.leave i])) is rest) :
      Walks g past (i :: is) (.enter i :: (below ++ .leave i :: rest))

theorem exists_walks_of_lt (g : Graph) (n : Nat) (is : List Nat) (small : ∀ i ∈ is, i < n)
    (past : Array Visit) :
    ∃ new, (is.foldl (fun p j => g.walk j p) past).toList = past.toList ++ new ∧
      g.Walks past.toList is new := by
  -- The bound on the nodes falls from a list to the operands of its nodes, which are smaller.
  induction n generalizing is past with
  | zero =>
    cases is with
    | nil => exact ⟨[], by simp, .nil⟩
    | cons i is => exact absurd (small i (by simp)) (Nat.not_lt_zero i)
  | succ n ih =>
    induction is generalizing past with
    | nil => exact ⟨[], by simp, .nil⟩
    | cons i is ihs =>
      have others := ihs (fun j hj => small j (by simp [hj]))
      rw [List.foldl_cons, g.walk_eq]
      split
      · next done =>
        obtain ⟨rest, visits, shape⟩ := others (past.push (.again i))
        rw [Array.toList_push] at visits shape
        exact ⟨.again i :: rest, by simpa using visits, .again (by simpa using done) shape⟩
      · next fresh =>
        have below_lt : ∀ j ∈ (g.node i).operands, j < n := fun j hj =>
          Nat.lt_of_lt_of_le (g.lt_of_mem hj) (Nat.lt_succ_iff.mp (small i (by simp)))
        obtain ⟨below, visited, operands⟩ :=
          ih (g.node i).operands below_lt (past.push (.enter i))
        rw [Array.toList_push] at visited operands
        obtain ⟨rest, visits, shape⟩ := others
          (((g.node i).operands.foldl (fun p j => g.walk j p) (past.push (.enter i))).push
            (.leave i))
        rw [Array.toList_push, visited] at visits shape
        exact ⟨.enter i :: (below ++ .leave i :: rest), by simpa using visits,
          .enter (by simpa using fresh) operands (by simpa using shape)⟩

theorem walks_visits (g : Graph) (root : Nat) : g.Walks [] [root] (g.visits root) := by
  obtain ⟨new, visits, shape⟩ :=
    g.exists_walks_of_lt (root + 1) [root] (by simp) #[]
  have : g.visits root = new := by simpa [Graph.visits] using visits
  rwa [this]

namespace Walks

variable {g : Graph} {past new : List Visit} {is : List Nat}

theorem eq_nil (h : g.Walks past [] new) : new = [] := by
  cases h
  rfl

theorem leave_mem (h : g.Walks past is new) : ∀ i ∈ is, .leave i ∈ past ++ new := by
  induction h with
  | nil => simp
  | again done _ ih =>
    intro i hi
    cases List.mem_cons.mp hi with
    | inl same => simp [same, done]
    | inr other => simpa using ih i other
  | enter _ _ _ _ ih =>
    intro i hi
    cases List.mem_cons.mp hi with
    | inl same => simp [same]
    | inr other => simpa using ih i other

theorem leave_of_enter (h : g.Walks past is new) {k : Nat} (entered : .enter k ∈ new) :
    .leave k ∈ new := by
  induction h with
  | nil => simp at entered
  | again _ _ ih => simpa using ih (by simpa using entered)
  | enter _ _ _ ihBelow ih =>
    simp only [List.mem_cons, List.mem_append, Visit.enter.injEq, reduceCtorEq, false_or]
      at entered
    obtain same | below | other := entered
    · simp [same]
    · simp [ihBelow below]
    · simp [ih other]

theorem reaches_of_leave (h : g.Walks past is new) {k : Nat} (left : .leave k ∈ new) :
    ∃ i ∈ is, g.Reaches i k := by
  induction h with
  | nil => simp at left
  | again _ _ ih =>
    obtain ⟨j, hj, below⟩ := ih (by simpa using left)
    exact ⟨j, by simp [hj], below⟩
  | @enter past i is below rest _ _ _ ihBelow ih =>
    simp only [List.mem_cons, List.mem_append, Visit.leave.injEq, reduceCtorEq, false_or]
      at left
    obtain deeper | same | other := left
    · obtain ⟨j, hj, path⟩ := ihBelow deeper
      exact ⟨i, by simp, path.head hj⟩
    · exact ⟨i, by simp, same ▸ .refl g k⟩
    · obtain ⟨j, hj, path⟩ := ih other
      exact ⟨j, by simp [hj], path⟩

end Walks

def Allows (g : Graph) (past : List Visit) : Visit → Prop
  | .enter i => .enter i ∉ past
  | .again i => .leave i ∈ past
  | .leave i => .enter i ∈ past ∧ .leave i ∉ past ∧ ∀ j ∈ (g.node i).operands, .leave j ∈ past

def Ordered (g : Graph) (past : List Visit) : List Visit → Prop
  | [] => True
  | v :: vs => g.Allows past v ∧ g.Ordered (past ++ [v]) vs

theorem ordered_append (g : Graph) (past xs ys : List Visit) :
    g.Ordered past (xs ++ ys) ↔ g.Ordered past xs ∧ g.Ordered (past ++ xs) ys := by
  induction xs generalizing past with
  | nil => simp [Ordered]
  | cons x xs ih => simp [Ordered, ih, and_assoc]

theorem Ordered.allows {g : Graph} {past pre post : List Visit} {v : Visit}
    (h : g.Ordered past (pre ++ v :: post)) : g.Allows (past ++ pre) v :=
  ((g.ordered_append past pre (v :: post)).mp h).2.1

theorem Walks.ordered {g : Graph} {past new : List Visit} {is : List Nat}
    (h : g.Walks past is new)
    (above : ∀ k, .enter k ∈ past → .leave k ∈ past ∨ ∀ i ∈ is, i < k) : g.Ordered past new := by
  induction h with
  | nil => trivial
  | again done _ ih =>
    refine ⟨done, ih fun k entered => ?_⟩
    obtain left | open_ := above k (by simpa using entered)
    · exact .inl (by simp [left])
    · exact .inr fun j hj => open_ j (by simp [hj])
  | @enter past i is below rest fresh operands others ihBelow ih =>
    -- A node that is still open is above all that are yet to be walked, so it can not come again.
    have unentered : .enter i ∉ past := by
      intro entered
      obtain left | open_ := above i entered
      · exact fresh left
      · exact Nat.lt_irrefl i (open_ i (by simp))
    have unleft : .leave i ∉ below := by
      intro left
      obtain ⟨j, hj, path⟩ := operands.reaches_of_leave left
      exact absurd (g.lt_of_mem hj) (Nat.not_lt.mpr path.le)
    have insideOrdered : g.Ordered (past ++ [.enter i]) below := by
      apply ihBelow
      intro k entered
      simp only [List.mem_append, List.mem_singleton, Visit.enter.injEq] at entered
      obtain earlier | same := entered
      · obtain left | open_ := above k earlier
        · exact .inl (by simp [left])
        · exact .inr fun j hj => Nat.lt_trans (g.lt_of_mem hj) (open_ i (by simp))
      · exact .inr fun j hj => same ▸ g.lt_of_mem hj
    have othersOrdered : g.Ordered (past ++ .enter i :: (below ++ [.leave i])) rest := by
      apply ih
      intro k entered
      simp only [List.mem_append, List.mem_cons, Visit.enter.injEq, reduceCtorEq,
        List.not_mem_nil, or_false] at entered
      obtain earlier | same | deeper := entered
      · obtain left | open_ := above k earlier
        · exact .inl (by simp [left])
        · exact .inr fun j hj => open_ j (by simp [hj])
      · exact .inl (by simp [same])
      · exact .inl (by simp [operands.leave_of_enter deeper])
    refine ⟨unentered, (g.ordered_append _ below _).mpr ⟨insideOrdered, ?_, ?_⟩⟩
    · refine ⟨by simp, by simp [fresh, unleft], fun j hj => ?_⟩
      simpa using operands.leave_mem j hj
    · simpa using othersOrdered

theorem ordered_visits (g : Graph) (root : Nat) : g.Ordered [] (g.visits root) :=
  (g.walks_visits root).ordered (by simp)

theorem leave_root_mem (g : Graph) (root : Nat) : .leave root ∈ g.visits root := by
  simpa using (g.walks_visits root).leave_mem root (by simp)

end Graph

/-- The fold over `xs` from `s` ends as `r` says: at the same error, or without
one in a state that `P` relates to the result. -/
def Runs (step : σ → ι → Except ε σ) (s : σ) (xs : List ι) (P : α → σ → Prop)
    (r : Except ε α) : Prop :=
  match r with
  | .ok a => ∃ s', foldUntil step s xs = (s', none) ∧ P a s'
  | .error e => ∃ s', foldUntil step s xs = (s', some e)

namespace Runs

variable {step : σ → ι → Except ε σ} {s : σ} {P : α → σ → Prop}

theorem nil {a : α} (h : P a s) : Runs step s [] P (.ok a) := ⟨s, rfl, h⟩

theorem single {x : ι} {r : Except ε α} (ok : ∀ a, r = .ok a → ∃ s', step s x = .ok s' ∧ P a s')
    (error : ∀ e, r = .error e → step s x = .error e) : Runs step s [x] P r := by
  cases r with
  | ok a =>
    obtain ⟨s', taken, holds⟩ := ok a rfl
    exact ⟨s', by rw [foldUntil_cons_ok taken]; rfl, holds⟩
  | error e => exact ⟨s, foldUntil_cons_error (error e rfl) []⟩

theorem cons {x : ι} {xs : List ι} {s' : σ} {r : Except ε α} (taken : step s x = .ok s')
    (rest : Runs step s' xs P r) : Runs step s (x :: xs) P r := by
  unfold Runs at rest ⊢
  rwa [foldUntil_cons_ok taken]

theorem append {xs ys : List ι} {r : Except ε α} {f : α → Except ε β} {Q : β → σ → Prop}
    (first : Runs step s xs P r)
    (second : ∀ a s', r = .ok a → P a s' → Runs step s' ys Q (f a)) :
    Runs step s (xs ++ ys) Q (r >>= f) := by
  cases r with
  | error e =>
    obtain ⟨s', stopped⟩ := first
    exact ⟨s', foldUntil_append_some stopped ys⟩
  | ok a =>
    obtain ⟨s', ran, holds⟩ := first
    have later := second a s' rfl holds
    show Runs step s (xs ++ ys) Q (f a)
    unfold Runs at later ⊢
    rwa [foldUntil_append_none ran]

theorem mono {xs : List ι} {r : Except ε α} {Q : α → σ → Prop} (h : Runs step s xs P r)
    (weaker : ∀ a s', P a s' → Q a s') : Runs step s xs Q r := by
  cases r with
  | error e => exact h
  | ok a =>
    obtain ⟨s', ran, holds⟩ := h
    exact ⟨s', ran, weaker a s' holds⟩

theorem map {xs : List ι} {r : Except ε α} {Q : σ → Prop} (h : Runs step s xs (fun _ => Q) r)
    (f : α → β) : Runs step s xs (fun _ => Q) (do let a ← r; return f a) := by
  cases r with
  | error e => exact h
  | ok a => exact h

end Runs
end ExprCompiler
