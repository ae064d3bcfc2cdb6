import ExprCompiler.Proofs.MemoisedEvaluation
import ExprCompiler.Proofs.SharedFolding

/-! A pass as a recursion that remembers which nodes it has finished and which are under
way. It goes through the visits of the walk, and comes to a node once for every edge that
leads there from a node below the root, and once for the root. It enters each node one of
these times and only notes it at the others, so counting the edges and the nodes gives how
often a node is met again. -/
namespace ExprCompiler

def Visit.arrival? : Visit → Option Nat
  | .enter i => some i
  | .leave _ => none
  | .again i => some i

def Visit.way (way : List Nat) : Visit → List Nat
  | .enter i => i :: way
  | .leave i => way.erase i
  | .again _ => way

/-- A pass under way: its own state, the nodes that it has finished, those that are under
way, and those that it came to, with repetitions. -/
structure Descent (σ : Type) where
  state : σ
  finished : List Nat
  underWay : List Nat
  arrivals : List Nat

namespace Descent

def start (s : σ) : Descent σ := ⟨s, [], [], []⟩

def meet (d : Descent σ) (i : Nat) (s : σ) : Descent σ :=
  { d with state := s, arrivals := d.arrivals ++ [i] }

def enter (d : Descent σ) (i : Nat) (s : σ) : Descent σ :=
  { d with state := s, underWay := i :: d.underWay, arrivals := d.arrivals ++ [i] }

def leave (d : Descent σ) (i : Nat) (s : σ) : Descent σ :=
  { d with state := s, finished := d.finished ++ [i], underWay := d.underWay.erase i }

end Descent

/-- Goes on with a pass at a node. A node that is finished is not gone through again, and
one that comes up while it is under way is a cycle. -/
def Graph.descend (g : Graph) (step : σ → Visit → Except Error σ) (i : Nat) (d : Descent σ) :
    Except Halt (Descent σ) :=
  if i ∈ d.finished then do
    let s ← (step d.state (.again i)).mapError .refused
    return d.meet i s
  else if i ∈ d.underWay then .error (.cycle i)
  else do
    let s ← (step d.state (.enter i)).mapError .refused
    let below ← (g.node i).operands.attach.foldlM (fun d j => g.descend step j.1 d) (d.enter i s)
    let s ← (step below.state (.leave i)).mapError .refused
    return below.leave i s
termination_by i
decreasing_by exact g.lt_of_mem j.2

namespace Descent

def after (vs : List Visit) (s : σ) : Descent σ :=
  ⟨s, vs.filterMap Visit.left?, vs.foldl Visit.way [], vs.filterMap Visit.arrival?⟩

variable {vs : List Visit} {s s' : σ} {i : Nat}

theorem after_again : after (vs ++ [.again i]) s' = (after vs s).meet i s' := by
  simp [after, meet, Visit.arrival?, Visit.way]

theorem after_enter : after (vs ++ [.enter i]) s' = (after vs s).enter i s' := by
  simp [after, enter, Visit.arrival?, Visit.way]

theorem after_leave : after (vs ++ [.leave i]) s' = (after vs s).leave i s' := by
  simp [after, leave, Visit.arrival?, Visit.way]

theorem mem_finished_after : i ∈ (after vs s).finished ↔ .leave i ∈ vs :=
  Visit.mem_filterMap_left

theorem enter_mem_of_underWay (open_ : i ∈ (after vs s).underWay) : .enter i ∈ vs := by
  induction vs using List.reverseRecOn with
  | nil => cases open_
  | append_singleton vs v ih =>
    cases v with
    | again j =>
      rw [after_again (s := s)] at open_
      simp [ih open_]
    | enter j =>
      rw [after_enter (s := s)] at open_
      rcases List.mem_cons.mp open_ with rfl | before
      · simp
      · simp [ih before]
    | leave j =>
      rw [after_leave (s := s)] at open_
      simp [ih (List.mem_of_mem_erase open_)]

def outcome (vs : List Visit) (r : σ × Option Error) : Except Halt (Descent σ) :=
  r.2.elim (.ok (after vs r.1)) fun e => .error (.refused e)

section Outcome

variable {step : σ → Visit → Except Error σ}

theorem outcome_nil (vs : List Visit) (s : σ) :
    outcome vs (foldUntil step s []) = pure (after vs s) := rfl

theorem outcome_cons (vs rest : List Visit) (s : σ) (v : Visit) :
    outcome vs (foldUntil step s (v :: rest)) =
      (step s v).mapError .refused >>= fun s' => outcome vs (foldUntil step s' rest) := by
  cases taken : step s v with
  | error e =>
    rw [foldUntil_cons_error taken]
    rfl
  | ok s' =>
    rw [foldUntil_cons_ok taken]
    rfl

theorem outcome_append (mid vs xs ys : List Visit) (s : σ) :
    outcome vs (foldUntil step s (xs ++ ys)) =
      outcome mid (foldUntil step s xs) >>= fun d => outcome vs (foldUntil step d.state ys) := by
  cases ran : foldUntil step s xs with
  | mk s' failed =>
    cases failed with
    | none =>
      rw [foldUntil_append_none ran]
      rfl
    | some e =>
      rw [foldUntil_append_some ran]
      rfl

theorem outcome_bind_congr {vs : List Visit} {f f' : Descent σ → Except Halt α}
    (same : ∀ s, f (after vs s) = f' (after vs s)) (r : σ × Option Error) :
    outcome vs r >>= f = outcome vs r >>= f' := by
  obtain ⟨s, failed⟩ := r
  cases failed with
  | none => exact same s
  | some e => rfl

end Outcome

end Descent

theorem encard_of_listed [DecidableEq α] {s : Set α} {xs : List α} (distinct : xs.Nodup)
    (listed : ∀ x, x ∈ s ↔ x ∈ xs) : s.encard = xs.length := by
  have same : s = (xs.toFinset : Set α) := by
    ext x
    rw [listed, List.coe_toFinset]
    rfl
  rw [same, Set.encard_coe_eq_coe_finsetCard, List.toFinset_card_of_nodup distinct]

namespace Graph

variable {g : Graph} {step : σ → Visit → Except Error σ} {d : Descent σ} {i : Nat}
  {past new : List Visit} {is : List Nat}

theorem descend_of_finished (done : i ∈ d.finished) :
    g.descend step i d =
      (step d.state (.again i)).mapError .refused >>= fun s => pure (d.meet i s) := by
  rw [descend, if_pos done]

theorem descend_of_fresh (fresh : i ∉ d.finished) (closed : i ∉ d.underWay) :
    g.descend step i d =
      (step d.state (.enter i)).mapError .refused >>= fun s =>
        (g.node i).operands.foldlM (fun d j => g.descend step j d) (d.enter i s) >>= fun below =>
          (step below.state (.leave i)).mapError .refused >>= fun s => pure (below.leave i s) := by
  rw [descend, if_neg fresh, if_neg closed]
  simp

theorem Walks.descend_eq (h : g.Walks past is new) (ordered : g.Ordered past new) (s : σ) :
    is.foldlM (fun d j => g.descend step j d) (.after past s) =
      Descent.outcome (past ++ new) (foldUntil step s new) := by
  induction h generalizing s with
  | nil => rw [Descent.outcome_nil, List.append_nil, List.foldlM_nil]
  | @again past i is rest done _ ih =>
    rw [List.foldlM_cons, descend_of_finished (Descent.mem_finished_after.mpr done), bind_assoc,
      Descent.outcome_cons, List.append_cons]
    refine bind_congr fun s' => ?_
    rw [pure_bind, ← Descent.after_again, ih ordered.2 s']
  | @enter past i is below rest fresh _ _ ihBelow ih =>
    have unentered : .enter i ∉ past := ordered.1
    obtain ⟨inside, -, others⟩ := (g.ordered_append _ below _).mp ordered.2
    rw [← Visit.append_enter_leave] at others
    rw [List.foldlM_cons, descend_of_fresh (mt Descent.mem_finished_after.mp fresh)
      (mt Descent.enter_mem_of_underWay unentered), bind_assoc, Descent.outcome_cons,
      Visit.append_enter_leave_append]
    -- From here on both sides do the same: enter the node, go through its operands, leave it.
    refine bind_congr fun s₁ => ?_
    rw [← Descent.after_enter, ihBelow inside, bind_assoc,
      Descent.outcome_append (past ++ [Visit.enter i] ++ below)]
    refine Descent.outcome_bind_congr (fun s₂ => ?_) _
    rw [bind_assoc, Descent.outcome_cons]
    refine bind_congr fun s₃ => ?_
    rw [pure_bind, ← Descent.after_leave, ← Visit.append_enter_leave, ih others s₃]

theorem descend_start (g : Graph) (step : σ → Visit → Except Error σ) (root : Nat) (s : σ) :
    g.descend step root (.start s) =
      Descent.outcome (g.visits root) (foldUntil step s (g.visits root)) := by
  have whole : [root].foldlM (fun d j => g.descend step j d) (.after [] s) = _ :=
    (g.walks_visits root).descend_eq (g.ordered_visits root) s
  rw [List.nil_append] at whole
  rw [← whole, List.foldlM_cons]
  exact (bind_pure _).symm

theorem Walks.way_eq (h : g.Walks past is new) (way : List Nat) :
    new.foldl Visit.way way = way := by
  induction h generalizing way with
  | nil => rfl
  | again _ _ ih => exact ih way
  | @enter past i is below rest _ _ _ ihBelow ih =>
    have closed : (Visit.leave i).way (i :: way) = way := List.erase_cons_head i way
    rw [List.foldl_cons, List.foldl_append, Visit.way, ihBelow, List.foldl_cons, closed, ih]

/-- A walk comes to the nodes of its list, and from each node that it goes through to
every operand of it. -/
theorem Walks.arrivals_perm (h : g.Walks past is new) :
    (new.filterMap Visit.arrival?).Perm
      (is ++ (new.filterMap Visit.left?).flatMap fun i => (g.node i).operands) := by
  induction h with
  | nil => simp
  | @again past i is rest _ _ ih => exact ih.cons i
  | @enter past i is below rest _ _ _ ihBelow ih =>
    have came : (Visit.enter i :: (below ++ Visit.leave i :: rest)).filterMap Visit.arrival? =
        i :: (below.filterMap Visit.arrival? ++ rest.filterMap Visit.arrival?) := by
      simp [List.filterMap_cons, Visit.arrival?]
    have left : (Visit.enter i :: (below ++ Visit.leave i :: rest)).filterMap Visit.left? =
        below.filterMap Visit.left? ++ i :: rest.filterMap Visit.left? := by
      simp [List.filterMap_cons]
    rw [came, left, List.flatMap_append, List.flatMap_cons]
    -- The operands of the node itself stand first below it, but the node is left after them.
    refine ((ihBelow.append ih).cons i).trans ?_
    rw [List.cons_append, List.perm_cons, List.perm_iff_count]
    intro j
    simp only [List.count_append]
    omega

theorem Walks.length_arrivals (h : g.Walks past is new) :
    (new.filterMap Visit.arrival?).length =
      (new.filterMap Visit.again?).length + (new.filterMap Visit.left?).length := by
  induction h with
  | nil => rfl
  | again _ _ ih =>
    simp only [List.filterMap_cons, Visit.arrival?, Visit.again?, Visit.left?, List.length_cons]
    omega
  | enter _ _ _ ihBelow ih =>
    simp only [List.filterMap_cons, List.filterMap_append, Visit.arrival?, Visit.again?,
      Visit.left?, List.length_cons, List.length_append]
    omega

abbrev Edge (g : Graph) := (i : Nat) × Fin (g.node i).operands.length

theorem encard_reaches (g : Graph) (root : Nat) :
    {i | g.Reaches root i}.encard = (g.postorder root).length :=
  encard_of_listed (g.nodup_postorder root) fun _ => mem_postorder.symm

theorem encard_edges (g : Graph) (root : Nat) :
    {e : g.Edge | g.Reaches root e.1}.encard =
      ((g.postorder root).flatMap fun i => (g.node i).operands).length := by
  have distinct : ((g.postorder root).sigma fun i =>
      List.finRange (g.node i).operands.length).Nodup :=
    (g.nodup_postorder root).sigma fun i => List.nodup_finRange _
  have listed (e : g.Edge) : e ∈ {e : g.Edge | g.Reaches root e.1} ↔
      e ∈ (g.postorder root).sigma fun i => List.finRange (g.node i).operands.length := by
    obtain ⟨i, k⟩ := e
    simp [List.mem_sigma, mem_postorder]
  rw [encard_of_listed distinct listed]
  simp [List.length_sigma, List.length_flatMap]

end Graph

def Note.isReuse : Note → Bool
  | .reusedNode _ _ => true
  | _ => false

namespace Lowering

variable {g : Graph} {t : SymbolTable} {params : List Variable} {s s' : Lowering}

theorem notes_of_declare {name : String} {n : Nat} (h : s.declare t name n = .ok s') :
    s'.notes = s.notes ∨ ∃ k, s'.notes = s.notes ++ [.declaredImport name n k] := by
  obtain ⟨-, rfl⟩ | ⟨-, rfl⟩ := addImport_cases (addImport_of_declare h).1
  · exact .inl rfl
  · obtain ⟨ds, same⟩ := s.declareImport_fst name n
    exact .inr ⟨(s.declareImport name n).2, by simp [newImport, same]⟩

theorem reuses_of_step {v : Visit} (h : step g t params s v = .ok s') :
    s'.notes.filter Note.isReuse =
      s.notes.filter Note.isReuse ++ v.again?.toList.map (.reusedNode g) := by
  cases v with
  | again i =>
    cases h
    simp [Visit.again?, Note.isReuse]
  | enter i =>
    obtain ⟨name, args, -, declared⟩ | ⟨-, rfl⟩ := step_enter_cases h
    · obtain same | ⟨k, grown⟩ := notes_of_declare declared
      · simp [same, Visit.again?]
      · simp [grown, Visit.again?, Note.isReuse]
    · simp [Visit.again?]
  | leave i =>
    obtain ⟨v, k, -, -, rfl⟩ | ⟨instr, -, rfl⟩ := step_leave_cases h
    · simp [Visit.again?]
    · simp [Visit.again?, emit]

theorem reuses_of_foldUntil {vs : List Visit} {final : Lowering}
    (h : foldUntil (step g t params) s vs = (final, none)) :
    final.notes.filter Note.isReuse =
      s.notes.filter Note.isReuse ++ (vs.filterMap Visit.again?).map (.reusedNode g) := by
  induction vs generalizing s with
  | nil =>
    cases h
    simp
  | cons v vs ih =>
    obtain ⟨s', taken, rest⟩ := foldUntil_cons_none h
    rw [ih rest, reuses_of_step taken, List.append_assoc, ← List.map_append]
    cases again : v.again? <;> simp [again]

end Lowering

/-- Lowering is the recursion that lowers a node once and remembers it. It comes to the
root once, and once to every operand of every node below the root, whatever is shared. It
goes through each node one of these times; each other time is noted as a reuse, so that
reuses and nodes together are one more than the edges. In the end the nodes that are
remembered are those below the root, and none is under way. -/
theorem Graph.lowering_follows_edges_once {g h : Graph} {root top : Nat} {folded : Bool}
    {t : SymbolTable} {id : Nat} {params : List Variable} {strategy : Strategy}
    {u : CompilationUnit} (expr : g.lowered root folded = (h, top))
    (lowered : (g.lower root folded t id params strategy).result = .ok u) :
    ∃ d used, h.descend (Lowering.step h t params) top (.start (.start params.length)) = .ok d ∧
      strategy.resolve params.length = .ok used ∧
      u = d.state.finish id params.length top used ∧
      (g.lower root folded t id params strategy).notes = d.state.notes ∧
      d.arrivals = (h.visits top).filterMap Visit.arrival? ∧
      d.arrivals.Perm (top :: d.finished.flatMap fun i => (h.node i).operands) ∧
      d.arrivals.length = 1 + {e : h.Edge | h.Reaches top e.1}.encard ∧
      d.state.notes.countP Note.isReuse + {i | h.Reaches top i}.encard =
        1 + {e : h.Edge | h.Reaches top e.1}.encard ∧
      d.finished.Nodup ∧ (∀ i, i ∈ d.finished ↔ h.Reaches top i) ∧
      d.underWay = [] := by
  obtain ⟨used, s, resolved, distinct, walked, rfl⟩ := lower_cases lowered
  have notes : (g.lower root folded t id params strategy).notes = s.notes := by
    rw [lower_eq_walk _ _ _ _ _ resolved distinct, walked]
  rw [expr] at walked ⊢
  have walk := h.walks_visits top
  have length := walk.arrivals_perm.length_eq
  have again : s.notes.countP Note.isReuse = ((h.visits top).filterMap Visit.again?).length := by
    rw [List.countP_eq_length_filter, Lowering.reuses_of_foldUntil walked]
    simp [Lowering.start]
  rw [List.length_append, List.length_singleton] at length
  refine ⟨.after (h.visits top) s, used, ?_, resolved, rfl, notes, rfl, walk.arrivals_perm, ?_, ?_,
    h.nodup_postorder top, fun i => mem_postorder, walk.way_eq []⟩
  · rw [descend_start, walked]
    rfl
  · rw [encard_edges]
    exact_mod_cast length
  · rw [encard_edges, encard_reaches]
    have counted := walk.length_arrivals
    rw [length, ← again] at counted
    exact_mod_cast counted.symm

def greaterProduct : Graph :=
  ⟨#[.const 1.0, .var ⟨0, "x"⟩, .binary .mul 0 1, .binary .add 2 2, .call "max" [3, 3],
    .binary .mul 4 3], by decide⟩

theorem greaterProduct_follows_edges_once :
    ∃ h top u d, greaterProduct.lowered 5 true = (h, top) ∧
      (greaterProduct.lower 5 true (.builtinsOnly .standard) 3 [⟨0, "x"⟩] .auto).result = .ok u ∧
      h.descend (Lowering.step h (.builtinsOnly .standard) [⟨0, "x"⟩]) top (.start (.start 1)) =
        .ok d ∧
      d.arrivals = [8, 7, 6, 1, 1, 6, 6] ∧ d.state.notes.countP Note.isReuse = 3 ∧
      d.underWay = [] ∧ {e : h.Edge | h.Reaches top e.1}.encard = 6 ∧
      {i | h.Reaches top i}.encard = 4 := by
  obtain ⟨u, lowered⟩ := exists_of_isOk (show
    (greaterProduct.lower 5 true (.builtinsOnly .standard) 3 [⟨0, "x"⟩] .auto).result.isOk = true by
      decide +kernel)
  have visits : ((greaterProduct.lowered 5 true).1.visits
      (greaterProduct.lowered 5 true).2).filterMap Visit.arrival? = [8, 7, 6, 1, 1, 6, 6] := by
    decide +kernel
  have reuses : (greaterProduct.lower 5 true (.builtinsOnly .standard) 3 [⟨0, "x"⟩]
      .auto).notes.countP Note.isReuse = 3 := by decide +kernel
  obtain ⟨h, top, expr⟩ : ∃ h top, greaterProduct.lowered 5 true = (h, top) := ⟨_, _, rfl⟩
  obtain ⟨d, used, ran, -, -, notes, arrivals, -, edges, nodes, -, -, closed⟩ :=
    Graph.lowering_follows_edges_once expr lowered
  rw [expr] at visits
  rw [notes] at reuses
  rw [visits] at arrivals
  rw [reuses, ← edges, arrivals] at nodes
  rw [arrivals] at edges
  refine ⟨h, top, u, d, expr, lowered, ran, arrivals, reuses, closed, ?_, ?_⟩
  · exact (ENat.add_right_injective_of_ne_top (show (1 : ℕ∞) ≠ ⊤ by simp) edges).symm
  · exact ENat.add_right_injective_of_ne_top (show (3 : ℕ∞) ≠ ⊤ by simp) nodes

end ExprCompiler
