import ExprCompiler.Proofs.Compilation
import ExprCompiler.Proofs.Emission

/-! The callee as a list of its nodes. Which node stands where, and the number of
every value, follow from the graph and the parameters: a node that is not a
variable takes one instruction, at the place where the tree completes it first. -/
namespace ExprCompiler

theorem nodup_appendNew [DecidableEq α] {seen xs : List α} (distinct : seen.Nodup) :
    (appendNew seen xs).Nodup := by
  induction xs generalizing seen with
  | nil => exact distinct
  | cons x xs ih =>
    rw [appendNew]
    split
    · exact ih distinct
    · next new => exact ih (List.nodup_append.mpr ⟨distinct, by simp, by grind⟩)

namespace Node

def instr? (value : Nat → Nat) (reference : String → Nat) : Node → Option Instr
  | .var _ => none
  | .const c => some (.const c)
  | .neg a => some (.neg (value a))
  | .binary op a b => some (.binary op (value a) (value b))
  | .call name args => some (.call (reference name) (args.map value))

variable {value value' : Nat → Nat} {reference reference' : String → Nat} {n : Node}

theorem instr?_congr (values : ∀ j ∈ n.operands, value j = value' j)
    (references : ∀ name args, n = .call name args → reference name = reference' name) :
    n.instr? value reference = n.instr? value' reference' := by
  cases n with
  | var _ | const _ => rfl
  | neg a => rw [instr?, instr?, values a (by simp [operands])]
  | binary op a b =>
    rw [instr?, instr?, values a (by simp [operands]), values b (by simp [operands])]
  | call name args =>
    have same : args.map value = args.map value' := List.map_congr_left values
    rw [instr?, instr?, references name args rfl, same]

theorem operands_of_instr? {instr : Instr} (chosen : n.instr? value reference = some instr) :
    instr.operands = n.operands.map value := by
  cases n with
  | var _ => cases chosen
  | const _ | neg _ | binary _ _ _ | call _ _ =>
    cases chosen
    rfl

theorem asVar?_of_instr? {instr : Instr} (chosen : n.instr? value reference = some instr) :
    n.asVar? = none := by
  cases n with
  | var _ => cases chosen
  | const _ | neg _ | binary _ _ _ | call _ _ => rfl

end Node

namespace Graph

def computes (g : Graph) (i : Nat) : Bool := (g.node i).asVar?.isNone

/-- The nodes below a root that take an instruction, each where it is completed
first when the operands of every node are completed from left to right before it. -/
def computed (g : Graph) (root : Nat) : List Nat :=
  (appendNew [] (g.treePostorder root)).filter g.computes

/-- The number of the value that a node has: a variable that of its parameter, any
other node that of its instruction. -/
def valueNumber (g : Graph) (root : Nat) (params : List Variable) (i : Nat) : Nat :=
  (g.node i).asVar?.elim (params.length + (g.computed root).idxOf i) fun v =>
    params.findIdx (·.id = v.id)

variable {g : Graph} {root : Nat} {params : List Variable}

theorem computed_eq (g : Graph) (root : Nat) :
    g.computed root = ((g.visits root).filterMap Visit.left?).filter g.computes := by
  rw [computed, ← postorder_eq, postorder]

theorem nodup_computed (g : Graph) (root : Nat) : (g.computed root).Nodup :=
  (nodup_appendNew List.nodup_nil).filter _

theorem mem_computed {i : Nat} :
    i ∈ g.computed root ↔ g.Reaches root i ∧ (g.node i).asVar? = none := by
  simp [computed, mem_appendNew, mem_treePostorder, computes]

theorem valueNumber_of_var {i k : Nat} {v : Variable} (kind : g.node i = .var v)
    (found : params.findIdx? (·.id = v.id) = some k) : g.valueNumber root params i = k := by
  rw [valueNumber, kind]
  exact (List.findIdx?_eq_some_iff_findIdx_eq.mp found).2

theorem valueNumber_of_getElem? {i k : Nat} (here : (g.computed root)[k]? = some i) :
    g.valueNumber root params i = params.length + k := by
  obtain ⟨inside, rfl⟩ := List.getElem?_eq_some_iff.mp here
  have plain := (mem_computed.mp (List.getElem_mem inside)).2
  rw [valueNumber, plain, Option.elim_none, (g.nodup_computed root).idxOf_getElem k inside]

theorem getElem?_computed_of_leave {past vs : List Visit} {i : Nat}
    (split : past ++ .leave i :: vs = g.visits root) (plain : (g.node i).asVar? = none) :
    (g.computed root)[((past.filterMap Visit.left?).filter g.computes).length]? = some i := by
  have taken : g.computes i = true := by rw [computes, plain]; rfl
  rw [computed_eq, ← split, List.filterMap_append, List.filter_append,
    List.filterMap_cons_some (Visit.left?_leave i), List.filter_cons_of_pos taken,
    List.getElem?_append_right (Nat.le_refl _), Nat.sub_self]
  rfl

end Graph

namespace Lowering

variable {g : Graph} {t : SymbolTable} {params : List Variable} {root : Nat}
  {reference : String → Nat} {s s' : Lowering} {past : List Visit}

theorem instr?_eq (s : Lowering) (n : Node) : s.instr? n = n.instr? s.value s.reference := by
  cases n <;> rfl

/-- After some visits the nodes left have their numbers, and the instructions are
those of the nodes left, in order. -/
structure Lists (g : Graph) (root : Nat) (params : List Variable) (reference : String → Nat)
    (past : List Visit) (s : Lowering) : Prop where
  value : ∀ i, .leave i ∈ past → s.value i = g.valueNumber root params i
  instrs : s.instrs.map some = ((past.filterMap Visit.left?).filter g.computes).map fun i =>
    (g.node i).instr? (g.valueNumber root params) reference
  earlier : ∀ (k : Nat) (instr : Instr), s.instrs[k]? = some instr →
    ∀ x ∈ instr.operands, x < params.length + k
  bound : ∀ i v, .leave i ∈ past → g.node i = .var v → ∃ k, params.findIdx? (·.id = v.id) = some k

theorem lists_start (arity : Nat) : Lists g root params reference [] (start arity) where
  value := by simp
  instrs := rfl
  earlier := by simp [start]
  bound := by simp

namespace Lists

theorem keep (h : Lists g root params reference past s) {v : Visit} (open_ : v.left? = none)
    (instrs : s'.instrs = s.instrs) (value : s'.value = s.value) :
    Lists g root params reference (past ++ [v]) s' := by
  have lefts : (past ++ [v]).filterMap Visit.left? = past.filterMap Visit.left? := by simp [open_]
  have before (i : Nat) (left : .leave i ∈ past ++ [v]) : .leave i ∈ past := by
    rwa [← Visit.mem_filterMap_left, lefts, Visit.mem_filterMap_left] at left
  refine ⟨fun i left => ?_, ?_, ?_, fun i v' left => h.bound i v' (before i left)⟩
  · rw [value]
    exact h.value i (before i left)
  · rw [instrs, lefts]
    exact h.instrs
  · rw [instrs]
    exact h.earlier

theorem leave {vs : List Visit} {i : Nat} (h : Lists g root params reference past s)
    (emits : Emits g params.length past s)
    (known : ∀ name n, (name, n) ∈ s.imports → s.reference name = reference name)
    (allowed : g.Allows past (.leave i)) (split : past ++ .leave i :: vs = g.visits root)
    (taken : step g t params s (.leave i) = .ok s') :
    Lists g root params reference (past ++ [.leave i]) s' := by
  have lefts : (past ++ [Visit.leave i]).filterMap Visit.left? =
      past.filterMap Visit.left? ++ [i] := by simp
  have before {j : Nat} (left : .leave j ∈ past ++ [.leave i]) : j = i ∨ .leave j ∈ past := by
    simpa [or_comm] using left
  have value {x : Nat} (number : g.valueNumber root params i = x) (j : Nat)
      (left : .leave j ∈ past ++ [.leave i]) :
      s.value.set i x j = g.valueNumber root params j := by
    by_cases same : j = i
    · rw [same, Assignment.set_self, number]
    · rw [Assignment.set_of_ne _ _ same]
      exact h.value j ((before left).resolve_left same)
  obtain ⟨v, k, kind, found, rfl⟩ | ⟨instr, chosen, rfl⟩ := step_leave_cases taken
  · have skipped : ¬ g.computes i = true := by simp [Graph.computes, kind, Node.asVar?]
    refine ⟨value (Graph.valueNumber_of_var kind found), ?_, h.earlier, fun j w left kind' => ?_⟩
    · rw [lefts, List.filter_append, List.filter_cons_of_neg skipped, List.filter_nil,
        List.append_nil]
      exact h.instrs
    · obtain rfl | earlier := before left
      · cases kind.symm.trans kind'
        exact ⟨k, found⟩
      · exact h.bound j w earlier kind'
  · rw [instr?_eq] at chosen
    have plain := Node.asVar?_of_instr? chosen
    have computes : g.computes i = true := by simp [Graph.computes, plain]
    have number : g.valueNumber root params i = params.length + s.instrs.length := by
      rw [Graph.valueNumber_of_getElem? (Graph.getElem?_computed_of_leave split plain)]
      simpa using (congrArg List.length h.instrs).symm
    have final : some instr = (g.node i).instr? (g.valueNumber root params) reference := by
      rw [← chosen]
      refine Node.instr?_congr (fun j hj => h.value j (allowed.2.2 j hj)) fun name args kind => ?_
      exact known name _ (emits.entered i name args allowed.1 kind)
    have operands : ∀ x ∈ instr.operands, x < params.length + s.instrs.length := by
      intro x used
      rw [Node.operands_of_instr? chosen] at used
      obtain ⟨j, hj, rfl⟩ := List.mem_map.mp used
      exact (emits.left j (allowed.2.2 j hj)).2
    refine ⟨value number, ?_, fun k instr' here => ?_, fun j w left kind' => ?_⟩
    · rw [lefts, List.filter_append, List.filter_cons_of_pos computes, List.filter_nil,
        List.map_append, ← h.instrs, emit, List.map_append, List.map_singleton, List.map_singleton,
        final]
    · rw [emit, List.getElem?_append] at here
      split at here
      · exact h.earlier k instr' here
      · obtain ⟨last, rfl⟩ : k - s.instrs.length = 0 ∧ instr = instr' := by
          simpa [List.getElem?_singleton] using here
        rw [show k = s.instrs.length by omega]
        exact operands
    · obtain rfl | earlier := before left
      · rw [kind'] at plain
        cases plain
      · exact h.bound j w earlier kind'

theorem visits {vs : List Visit} {final : Lowering}
    (h : Lists g root params final.reference past s) (emits : Emits g params.length past s)
    (ordered : g.Ordered past vs) (split : past ++ vs = g.visits root)
    (run : foldUntil (step g t params) s vs = (final, none)) :
    Lists g root params final.reference (g.visits root) final := by
  induction vs generalizing past s with
  | nil =>
    cases run
    rwa [← split, List.append_nil]
  | cons v vs ih =>
    obtain ⟨s', taken, rest⟩ := foldUntil_cons_none run
    have emits' : Emits g params.length (past ++ [v]) s' :=
      emits.visits ⟨ordered.1, trivial⟩ (by rw [foldUntil_cons_ok taken]; rfl)
    have next : Lists g root params final.reference (past ++ [v]) s' := by
      cases v with
      | enter i =>
        obtain ⟨name, js, -, declared⟩ | ⟨-, rfl⟩ := step_enter_cases taken
        · obtain ⟨-, -, instrs, value, -⟩ := declare_cases declared
          exact h.keep rfl instrs value
        · exact h.keep rfl rfl rfl
      | leave i =>
        refine h.leave emits (fun name n imported => ?_) ordered.1 split taken
        have later := reference_eq_of_prefix emits.tables (emits.tables.foldUntil run)
          (imports_prefix_of_foldUntil run) imported
        exact later.symm
      | again i =>
        cases taken
        exact h.keep rfl rfl rfl
    exact ih next emits' ordered.2 (by simpa using split) rest

end Lists

theorem lists_of_walk
    (run : foldUntil (step g t params) (.start params.length) (g.visits root) = (s, none)) :
    Lists g root params s.reference (g.visits root) s :=
  (lists_start params.length).visits emits_start (g.ordered_visits root) rfl run

theorem function_callee {n : Nat} (tables : s.Agrees n) (id : Nat) (used : Strategy) :
    (s.finish id n root used).function? calleeName = some (s.callee n root) := by
  simp [CompilationUnit.function?, bodies_finish tables, declarations_finish tables]

end Lowering

/-- The callee of a lowered expression has one block. It takes the parameters, has
one instruction for each node below the root that is not a variable, in the order in
which the nodes are completed, and returns the value of the root. Instruction `k`
defines the value after the parameters and the `k` instructions before it, and uses
none that is defined later. -/
theorem Graph.callee_lists_postorder {g h : Graph} {root top : Nat} {folded : Bool}
    {t : SymbolTable} {id : Nat} {params : List Variable} {strategy : Strategy}
    {u : CompilationUnit} (expr : g.lowered root folded = (h, top))
    (lowered : (g.lower root folded t id params strategy).result = .ok u) :
    ∃ body instrs reference, u.function? calleeName = some body ∧
      body.block = some ⟨List.replicate params.length .f64, instrs,
        some [h.valueNumber top params top]⟩ ∧
      instrs.map some = (h.computed top).map (fun i =>
        (h.node i).instr? (h.valueNumber top params) reference) ∧
      (h.computed top).Nodup ∧
      (∀ i, i ∈ h.computed top ↔ h.Reaches top i ∧ (h.node i).asVar? = none) ∧
      (∀ (k i : Nat), (h.computed top)[k]? = some i →
        h.valueNumber top params i = params.length + k) ∧
      (∀ i v, h.Reaches top i → h.node i = .var v →
        ∃ p, params[h.valueNumber top params i]? = some p ∧ p.id = v.id) ∧
      (∀ (k : Nat) (instr : Instr), instrs[k]? = some instr →
        ∀ x ∈ instr.operands, x < params.length + k) ∧
      ∀ i name args, h.Reaches top i → h.node i = .call name args →
        body.references[reference name]? =
            some ⟨.declaration 0 (reference name + 1), .f64 args.length⟩ ∧
          u.declarations[reference name + 1]? = some ⟨name, .imported, .f64 args.length⟩ := by
  obtain ⟨used, s, -, -, walked, rfl⟩ := lower_cases lowered
  rw [expr] at walked ⊢
  have emits := Lowering.emits_of_walk walked
  have lists := Lowering.lists_of_walk walked
  have visited {i : Nat} (below : h.Reaches top i) :=
    (h.ordered_visits top).closed (h.leave_root_mem top) below
  refine ⟨s.callee params.length top, s.instrs, s.reference,
    Lowering.function_callee emits.tables id used, ?_, ?_, h.nodup_computed top,
    fun i => mem_computed, fun k i => valueNumber_of_getElem?, ?_, lists.earlier, ?_⟩
  · rw [← lists.value top (h.leave_root_mem top)]
    rfl
  · rw [computed_eq]
    exact lists.instrs
  · intro i v below kind
    obtain ⟨k, found⟩ := lists.bound i v (visited below).2 kind
    obtain ⟨inside, same, -⟩ := List.findIdx?_eq_some_iff_getElem.mp found
    rw [valueNumber_of_var kind found]
    exact ⟨_, List.getElem?_eq_getElem inside, by simpa using same⟩
  · intro i name args below kind
    have imported := emits.entered i name args (visited below).1 kind
    have here := emits.named.getElem?_reference emits.tables imported List.prefix_rfl
    refine ⟨?_, Lowering.declarations_import emits.tables here⟩
    rw [Lowering.references_callee emits.tables, Lowering.getElem?_externs, here]
    rfl

def twinSums : Graph :=
  ⟨#[.var ⟨0, "x"⟩, .var ⟨1, "y"⟩, .binary .add 0 1, .binary .add 0 1, .call "hypot" [3, 2],
    .binary .mul 2 4, .neg 5], by decide⟩

/-- Each sum has an instruction of its own; the one that the product meets first comes
first, and it is not repeated below the call. -/
theorem twinSums_callee_lists_postorder :
    ∃ u body k,
      (twinSums.lower 6 false (.builtinsOnly .standard) 3 [⟨0, "x"⟩, ⟨1, "y"⟩] .auto).result =
        .ok u ∧
      u.function? calleeName = some body ∧
      body.block = some ⟨[.f64, .f64],
        [.binary .add 0 1, .binary .add 0 1, .call k [3, 2], .binary .mul 2 4, .neg 5],
        some [6]⟩ ∧
      u.declarations[k + 1]? = some ⟨"hypot", .imported, .f64 2⟩ := by
  obtain ⟨u, lowered⟩ := exists_of_isOk (show
    (twinSums.lower 6 false (.builtinsOnly .standard) 3 [⟨0, "x"⟩, ⟨1, "y"⟩] .auto).result.isOk =
      true by decide +kernel)
  obtain ⟨body, instrs, reference, found, block, listed, -, reached, -, -, -, imported⟩ :=
    Graph.callee_lists_postorder (show twinSums.lowered 6 false = (twinSums, 6) from rfl) lowered
  have order : twinSums.computed 6 = [2, 3, 4, 5, 6] := by decide +kernel
  have number : ∀ i < 7, twinSums.valueNumber 6 [⟨0, "x"⟩, ⟨1, "y"⟩] i = i := by decide +kernel
  have called := (reached 4).mp (by rw [order]; decide)
  refine ⟨u, body, reference "hypot", lowered, found, ?_, (imported 4 _ _ called.1 rfl).2⟩
  -- In this graph every node has its own number.
  have itself : ∀ i ∈ [2, 3, 4, 5, 6],
      (twinSums.node i).instr? (twinSums.valueNumber 6 [⟨0, "x"⟩, ⟨1, "y"⟩]) reference =
        (twinSums.node i).instr? (fun j => j) reference := by
    intro i inside
    have small : i < 7 := by grind
    exact Node.instr?_congr (fun j hj => number j (Nat.lt_trans (twinSums.lt_of_mem hj) small))
      fun _ _ _ => rfl
  have emitted : instrs.map some = [.binary .add 0 1, .binary .add 0 1,
      .call (reference "hypot") [3, 2], .binary .mul 2 4, .neg 5].map some := by
    rw [listed, order, List.map_congr_left itself]
    rfl
  rw [block, number 6 (by decide), List.map_injective_iff.mpr (Option.some_injective _) emitted]
  rfl

end ExprCompiler
