import ExprCompiler.Graph.Variables
import ExprCompiler.Proofs.Sites

/-! The walk over a graph against the orders of its tree. In the tree a shared
node stands at every use; the walk keeps the first place of each. So what is
collected along a walk without regard to repetitions is collected from the
tree: its variables and the places where lowering can fail. -/
namespace ExprCompiler

section AppendNew

variable [DecidableEq α]

def appendNew (seen : List α) : List α → List α
  | [] => seen
  | x :: xs => if x ∈ seen then appendNew seen xs else appendNew (seen ++ [x]) xs

theorem appendNew_append (seen xs ys : List α) :
    appendNew seen (xs ++ ys) = appendNew (appendNew seen xs) ys := by
  induction xs generalizing seen with
  | nil => rfl
  | cons x xs ih =>
    simp only [List.cons_append, appendNew]
    split <;> apply ih

theorem appendNew_of_subset {seen xs : List α} (known : ∀ x ∈ xs, x ∈ seen) :
    appendNew seen xs = seen := by
  induction xs with
  | nil => rfl
  | cons x xs ih =>
    rw [appendNew, if_pos (known x (by simp))]
    exact ih fun y hy => known y (by simp [hy])

theorem appendNew_singleton {seen : List α} {x : α} (new : x ∉ seen) :
    appendNew seen [x] = seen ++ [x] := by
  rw [appendNew, if_neg new, appendNew]

theorem mem_appendNew {seen xs : List α} {x : α} :
    x ∈ appendNew seen xs ↔ x ∈ seen ∨ x ∈ xs := by
  induction xs generalizing seen with
  | nil => simp [appendNew]
  | cons y xs ih =>
    rw [appendNew]
    split
    · next known =>
      rw [ih, List.mem_cons]
      constructor
      · exact Or.imp_right .inr
      · rintro (before | rfl | after)
        · exact .inl before
        · exact .inl known
        · exact .inr after
    · simp [ih, or_assoc]

theorem appendNew_map [DecidableEq β] {f : α → β} {seen xs : List α}
    (distinct : ∀ x ∈ seen ++ xs, ∀ y ∈ seen ++ xs, f x = f y → x = y) :
    appendNew (seen.map f) (xs.map f) = (appendNew seen xs).map f := by
  induction xs generalizing seen with
  | nil => rfl
  | cons x xs ih =>
    have same : f x ∈ seen.map f ↔ x ∈ seen := by
      constructor
      · intro image
        obtain ⟨y, hy, equal⟩ := List.mem_map.mp image
        rwa [← distinct y (by simp [hy]) x (by simp) equal]
      · exact List.mem_map_of_mem
    simp only [List.map_cons, appendNew, same]
    split
    · have wider : ∀ y ∈ seen ++ xs, y ∈ seen ++ x :: xs := fun y hy =>
        List.mem_append.mpr ((List.mem_append.mp hy).imp_right (List.mem_cons_of_mem x))
      apply ih
      exact fun y hy z hz => distinct y (wider y hy) z (wider z hz)
    · have grown : seen.map f ++ [f x] = (seen ++ [x]).map f := by simp
      rw [grown]
      apply ih
      simpa using distinct

theorem filter_appendNew (p : α → Bool) (seen xs : List α) :
    (appendNew seen xs).filter p = appendNew (seen.filter p) (xs.filter p) := by
  induction xs generalizing seen with
  | nil => rfl
  | cons x xs ih =>
    by_cases kept : p x
    · simp only [appendNew, List.filter_cons_of_pos kept, List.mem_filter, kept, and_true]
      split
      · exact ih seen
      · rw [ih, List.filter_append, List.filter_cons_of_pos kept, List.filter_nil]
    · rw [List.filter_cons_of_neg kept, appendNew]
      split
      · exact ih seen
      · rw [ih, List.filter_append, List.filter_cons_of_neg kept, List.filter_nil, List.append_nil]

end AppendNew

def Node.called? : Node → Option String
  | .call name _ => some name
  | _ => none

namespace Graph

def treePreorder (g : Graph) (i : Nat) : List Nat :=
  i :: (g.node i).operands.attach.flatMap fun j => g.treePreorder j.1
termination_by i
decreasing_by exact g.lt_of_mem j.2

def treePostorder (g : Graph) (i : Nat) : List Nat :=
  ((g.node i).operands.attach.flatMap fun j => g.treePostorder j.1) ++ [i]
termination_by i
decreasing_by exact g.lt_of_mem j.2

theorem treePreorder_eq (g : Graph) (i : Nat) :
    g.treePreorder i = i :: (g.node i).operands.flatMap g.treePreorder := by
  rw [treePreorder]
  simp [List.flatMap_def]

theorem treePostorder_eq (g : Graph) (i : Nat) :
    g.treePostorder i = (g.node i).operands.flatMap g.treePostorder ++ [i] := by
  rw [treePostorder]
  simp [List.flatMap_def]

theorem mem_treePreorder (g : Graph) {i k : Nat} : k ∈ g.treePreorder i ↔ g.Reaches i k := by
  induction i using g.node_induction with
  | step i ih =>
    rw [treePreorder_eq, List.mem_cons, List.mem_flatMap]
    constructor
    · rintro (rfl | ⟨j, hj, below⟩)
      · exact .refl g k
      · exact ((ih j hj).mp below).head hj
    · intro below
      rcases below.cases with rfl | ⟨j, hj, below⟩
      · exact .inl rfl
      · exact .inr ⟨j, hj, (ih j hj).mpr below⟩

theorem mem_treePostorder (g : Graph) {i k : Nat} : k ∈ g.treePostorder i ↔ g.Reaches i k := by
  induction i using g.node_induction with
  | step i ih =>
    rw [treePostorder_eq, List.mem_append, List.mem_singleton, List.mem_flatMap]
    constructor
    · rintro (⟨j, hj, below⟩ | rfl)
      · exact ((ih j hj).mp below).head hj
      · exact .refl g k
    · intro below
      rcases below.cases with rfl | ⟨j, hj, below⟩
      · exact .inr rfl
      · exact .inl ⟨j, hj, (ih j hj).mpr below⟩

theorem Ordered.leave_allows {g : Graph} {past : List Visit} (ordered : g.Ordered [] past) {i : Nat}
    (left : .leave i ∈ past) :
    .enter i ∈ past ∧ ∀ j ∈ (g.node i).operands, .leave j ∈ past := by
  obtain ⟨pre, post, rfl⟩ := List.append_of_mem left
  have allowed : g.Allows ([] ++ pre) (.leave i) := ordered.allows
  rw [List.nil_append] at allowed
  exact ⟨List.mem_append_left _ allowed.1, fun j hj => List.mem_append_left _ (allowed.2.2 j hj)⟩

/-- When a node has been left, all nodes below it have been. -/
theorem Ordered.closed {g : Graph} {past : List Visit} (ordered : g.Ordered [] past) {i k : Nat}
    (left : .leave i ∈ past) (below : g.Reaches i k) : .enter k ∈ past ∧ .leave k ∈ past := by
  induction below with
  | refl => exact ⟨(ordered.leave_allows left).1, left⟩
  | tail _ edge ih =>
    have left' := (ordered.leave_allows ih.2).2 _ edge
    exact ⟨(ordered.leave_allows left').1, left'⟩

end Graph

namespace Visit

@[simp] theorem entered?_enter (i : Nat) : (enter i).entered? = some i := rfl
@[simp] theorem entered?_leave (i : Nat) : (leave i).entered? = none := rfl
@[simp] theorem entered?_again (i : Nat) : (again i).entered? = none := rfl
@[simp] theorem left?_enter (i : Nat) : (enter i).left? = none := rfl
@[simp] theorem left?_leave (i : Nat) : (leave i).left? = some i := rfl
@[simp] theorem left?_again (i : Nat) : (again i).left? = none := rfl

theorem append_enter_leave (past below : List Visit) (i : Nat) :
    past ++ enter i :: (below ++ [leave i]) = past ++ [enter i] ++ below ++ [leave i] := by
  simp

theorem append_enter_leave_append (past below rest : List Visit) (i : Nat) :
    past ++ enter i :: (below ++ leave i :: rest) =
      past ++ enter i :: (below ++ [leave i]) ++ rest := by
  simp

end Visit

theorem Visit.mem_filterMap_entered {i : Nat} {vs : List Visit} :
    i ∈ vs.filterMap Visit.entered? ↔ .enter i ∈ vs := by
  rw [List.mem_filterMap]
  constructor
  · rintro ⟨v, hv, entered⟩
    cases v <;> simp_all [Visit.entered?]
  · exact fun h => ⟨.enter i, h, rfl⟩

namespace Graph

variable {g : Graph} {past new : List Visit} {is : List Nat}

/-- A walk enters the nodes of the trees in order, but each once. -/
theorem Walks.entered_eq (h : g.Walks past is new) (ordered : g.Ordered [] (past ++ new)) :
    (past ++ new).filterMap Visit.entered? =
      appendNew (past.filterMap Visit.entered?) (is.flatMap g.treePreorder) := by
  induction h with
  | nil => simp [appendNew]
  | @again past i is rest done _ ih =>
    have before := ((g.ordered_append [] past _).mp ordered).1
    have known : ∀ k ∈ g.treePreorder i, k ∈ past.filterMap Visit.entered? := fun k hk =>
      Visit.mem_filterMap_entered.mpr (before.closed done (g.mem_treePreorder.mp hk)).1
    rw [List.append_cons] at ordered ⊢
    rw [ih ordered, List.flatMap_cons, appendNew_append, appendNew_of_subset known]
    simp [List.filterMap_cons]
  | @enter past i is below rest _ _ _ ihBelow ih =>
    have new : i ∉ past.filterMap Visit.entered? := by
      rw [Visit.mem_filterMap_entered]
      exact ordered.allows
    rw [Visit.append_enter_leave_append] at ordered ⊢
    have first := ((g.ordered_append [] _ rest).mp ordered).1
    rw [Visit.append_enter_leave] at first
    have deeper := ihBelow ((g.ordered_append [] _ _).mp first).1
    have here : (past ++ [Visit.enter i]).filterMap Visit.entered? =
        past.filterMap Visit.entered? ++ [i] := by simp
    rw [ih ordered, Visit.append_enter_leave, List.filterMap_append, deeper, here,
      List.flatMap_cons, appendNew_append, treePreorder_eq, appendNew, if_neg new]
    simp [List.filterMap_cons]

theorem Walks.left_eq (h : g.Walks past is new) (ordered : g.Ordered [] (past ++ new)) :
    (past ++ new).filterMap Visit.left? =
      appendNew (past.filterMap Visit.left?) (is.flatMap g.treePostorder) := by
  induction h with
  | nil => simp [appendNew]
  | @again past i is rest done _ ih =>
    have before := ((g.ordered_append [] past _).mp ordered).1
    have known : ∀ k ∈ g.treePostorder i, k ∈ past.filterMap Visit.left? := fun k hk =>
      Visit.mem_filterMap_left.mpr (before.closed done (g.mem_treePostorder.mp hk)).2
    rw [List.append_cons] at ordered ⊢
    rw [ih ordered, List.flatMap_cons, appendNew_append, appendNew_of_subset known]
    simp [List.filterMap_cons]
  | @enter past i is below rest _ _ _ ihBelow ih =>
    rw [Visit.append_enter_leave_append] at ordered ⊢
    have first := ((g.ordered_append [] _ rest).mp ordered).1
    rw [Visit.append_enter_leave] at first
    have deeper := ihBelow ((g.ordered_append [] _ _).mp first).1
    have here : (past ++ [Visit.enter i]).filterMap Visit.left? = past.filterMap Visit.left? := by
      simp
    have new : i ∉ (past ++ [Visit.enter i] ++ below).filterMap Visit.left? := by
      rw [Visit.mem_filterMap_left]
      exact first.allows.2.1
    rw [deeper, here] at new
    rw [ih ordered, Visit.append_enter_leave, List.filterMap_append, deeper, here,
      List.flatMap_cons, treePostorder_eq, appendNew_append, appendNew_append,
      appendNew_singleton new]
    simp

theorem preorder_eq (g : Graph) (root : Nat) :
    g.preorder root = appendNew [] (g.treePreorder root) := by
  simpa [preorder] using (g.walks_visits root).entered_eq (by simpa using g.ordered_visits root)

theorem postorder_eq (g : Graph) (root : Nat) :
    g.postorder root = appendNew [] (g.treePostorder root) := by
  simpa [postorder] using (g.walks_visits root).left_eq (by simpa using g.ordered_visits root)

theorem mem_postorder {g : Graph} {root i : Nat} : i ∈ g.postorder root ↔ g.Reaches root i := by
  simp [postorder_eq, mem_appendNew, mem_treePostorder]

theorem sites_expr_eq (g : Graph) (i : Nat) :
    (g.expr i).sites = (g.treePreorder i).flatMap fun k => (g.node k).sites := by
  induction i using g.node_induction with
  | step i ih =>
    rw [sites_expr, treePreorder_eq, List.flatMap_cons, List.flatMap_assoc]
    simp only [List.flatMap_def, List.map_congr_left ih]

end Graph

namespace Variable

theorem filter_distinct (p : Nat → Bool) (vs : List Variable) :
    (distinct vs).filter (fun v => p v.id) = distinct (vs.filter fun v => p v.id) := by
  induction vs with
  | nil => rfl
  | cons v vs ih =>
    by_cases kept : p v.id
    · simp only [distinct, List.filter_cons, kept, if_true, ← ih, List.filter_filter,
        Bool.and_comm]
    · rw [distinct, List.filter_cons_of_neg (by simpa using kept),
        List.filter_cons_of_neg (by simpa using kept), ← ih, List.filter_filter]
      apply List.filter_congr
      intro w _
      by_cases same : w.id = v.id
      · simp [same, kept]
      · simp [same]

theorem distinct_append_cons {v : Variable} {vs : List Variable} (known : v ∈ vs)
    (ws : List Variable) : distinct (vs ++ v :: ws) = distinct (vs ++ ws) := by
  induction vs with
  | nil => simp at known
  | cons w vs ih =>
    simp only [List.cons_append, distinct]
    rcases List.mem_cons.mp known with rfl | known
    · have dropped := filter_distinct (fun id => id ≠ v.id)
      rw [dropped, dropped]
      simp
    · rw [ih known]

theorem distinct_appendNew (f : Nat → Option Variable) (seen xs : List Nat) :
    distinct ((appendNew seen xs).filterMap f) =
      distinct (seen.filterMap f ++ xs.filterMap f) := by
  induction xs generalizing seen with
  | nil => simp [appendNew]
  | cons x xs ih =>
    rw [appendNew]
    split
    · next known =>
      rw [ih]
      cases found : f x with
      | none => simp [found]
      | some v =>
        have before : v ∈ seen.filterMap f := List.mem_filterMap.mpr ⟨x, known, found⟩
        rw [List.filterMap_cons_some found, distinct_append_cons before]
    · rw [ih, List.filterMap_append, List.append_assoc, ← List.filterMap_append,
        List.singleton_append]

end Variable

def Site.variable : Site → Option Variable
  | .var v => some v
  | .call _ _ => none

theorem Graph.vars_eq (g : Graph) (root : Nat) :
    g.vars root = Variable.distinct ((g.expr root).sites.filterMap Site.variable) := by
  have own (i : Nat) : (g.node i).sites.filterMap Site.variable = ((g.node i).asVar?).toList := by
    cases g.node i <;> rfl
  rw [vars, preorder_eq, Variable.distinct_appendNew, sites_expr_eq, List.filterMap_nil,
    List.nil_append, List.filterMap_flatMap]
  simp only [own, List.filterMap_eq_flatMap_toList]

end ExprCompiler
