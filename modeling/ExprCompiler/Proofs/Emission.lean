import ExprCompiler.Code.Verification
import ExprCompiler.Proofs.Simulation
import ExprCompiler.Proofs.Unfolding

/-! What a walk without an error has emitted. The imports are the names called in
the tree, in pre-order; the calls among the instructions are those of the call
nodes in the order in which they are completed; and every instruction is well
typed over the values before it. -/
namespace ExprCompiler

namespace Site

def addTo (imports : List (String × Nat)) : Site → List (String × Nat)
  | .var _ => imports
  | .call name n => if name ∈ imports.map (·.1) then imports else imports ++ [(name, n)]

def imported (xs : List Site) : List (String × Nat) := xs.foldl addTo []

theorem imported_append (xs ys : List Site) : imported (xs ++ ys) = ys.foldl addTo (imported xs) :=
  List.foldl_append

theorem imported_concat (xs : List Site) (x : Site) :
    imported (xs ++ [x]) = addTo (imported xs) x := imported_append xs [x]

theorem prefix_addTo (imports : List (String × Nat)) (x : Site) : imports <+: addTo imports x := by
  cases x with
  | var v => exact List.prefix_rfl
  | call name n =>
    rw [addTo]
    split
    · exact List.prefix_rfl
    · exact List.prefix_append _ _

theorem name_mem_addTo (imports : List (String × Nat)) (name : String) (n : Nat) :
    name ∈ (addTo imports (.call name n)).map (·.1) := by
  rw [addTo]
  split
  · assumption
  · simp

theorem name_mem_imported {xs : List Site} {name : String} {n : Nat} (called : call name n ∈ xs) :
    name ∈ (imported xs).map (·.1) := by
  induction xs using List.reverseRecOn with
  | nil => simp at called
  | append_singleton xs x ih =>
    rw [imported_concat]
    rcases List.mem_append.mp called with before | last
    · exact ((prefix_addTo _ x).map _).subset (ih before)
    · rw [← List.mem_singleton.mp last]
      exact name_mem_addTo _ name n

theorem call_mem_of_imported {xs : List Site} {name : String} {n : Nat}
    (import_ : (name, n) ∈ imported xs) : call name n ∈ xs := by
  induction xs using List.reverseRecOn with
  | nil => simp [imported] at import_
  | append_singleton xs x ih =>
    rw [imported_concat] at import_
    cases x with
    | var v => exact List.mem_append_left _ (ih import_)
    | call other m =>
      rw [addTo] at import_
      split at import_
      · exact List.mem_append_left _ (ih import_)
      · rcases List.mem_append.mp import_ with before | last
        · exact List.mem_append_left _ (ih before)
        · cases List.mem_singleton.mp last
          simp

theorem foldl_addTo_of_subset {imports : List (String × Nat)} {xs : List Site}
    (known : ∀ name n, call name n ∈ xs → name ∈ imports.map (·.1)) :
    xs.foldl addTo imports = imports := by
  induction xs with
  | nil => rfl
  | cons x xs ih =>
    have same : addTo imports x = imports := by
      cases x with
      | var v => rfl
      | call name n => exact if_pos (known name n (by simp))
    rw [List.foldl_cons, same]
    exact ih fun name n called => known name n (by simp [called])

/-- A node that comes again brings no new name. -/
theorem imported_appendNew (sites : Nat → List Site) (seen is : List Nat) :
    imported ((appendNew seen is).flatMap sites) =
      imported (seen.flatMap sites ++ is.flatMap sites) := by
  induction is generalizing seen with
  | nil => simp [appendNew]
  | cons i is ih =>
    rw [appendNew]
    split
    · next known =>
      have again : (sites i).foldl addTo (imported (seen.flatMap sites)) =
          imported (seen.flatMap sites) := by
        apply foldl_addTo_of_subset
        intro name n called
        exact name_mem_imported (List.mem_flatMap.mpr ⟨i, known, called⟩)
      rw [ih, List.flatMap_cons, imported_append, imported_append, List.foldl_append, again]
    · rw [ih, List.flatMap_append, List.append_assoc, List.flatMap_singleton, List.flatMap_cons]

end Site

namespace Instr

variable {references : List FunctionRef} {types types' : List Ty} {ty : Ty}

theorem types?_concat {instrs : List Instr} {instr : Instr}
    (before : types? references types instrs = some types')
    (last : instr.type? references types' = some ty) :
    types? references types (instrs ++ [instr]) = some (types' ++ [ty]) := by
  induction instrs generalizing types with
  | nil =>
    cases before
    simp [types?, last]
  | cons head instrs ih =>
    rw [types?] at before
    rw [List.cons_append, types?]
    split at before
    · exact ih before
    · cases before

theorem type?_mono {references' : List FunctionRef} (grown : references <+: references')
    {instr : Instr} (typed : instr.type? references types = some ty) :
    instr.type? references' types = some ty := by
  cases instr with
  | call k args =>
    simp only [type?] at typed ⊢
    split at typed
    · next r found =>
      obtain ⟨inside, same⟩ := List.getElem?_eq_some_iff.mp found
      rw [List.prefix_iff_getElem?.mp grown k inside, same]
      exact typed
    · cases typed
  | const _ | neg _ | binary _ _ _ | bufferAddress | load _ _ => exact typed

theorem types?_mono {references' : List FunctionRef} (grown : references <+: references')
    {instrs : List Instr} (typed : types? references types instrs = some types') :
    types? references' types instrs = some types' := by
  induction instrs generalizing types with
  | nil => exact typed
  | cons instr instrs ih =>
    rw [types?] at typed ⊢
    split at typed
    · next ty fits =>
      rw [type?_mono grown fits]
      exact ih typed
    · cases typed

def reference? : Instr → Option Nat
  | .call k _ => some k
  | _ => none

end Instr

namespace Lowering

variable {g : Graph} {t : SymbolTable} {params : List Variable} {s s' : Lowering}
  {past : List Visit} {arity i : Nat}

/-- What holds of the state of lowering after some visits. -/
structure Emits (g : Graph) (arity : Nat) (past : List Visit) (s : Lowering) : Prop where
  tables : s.Agrees arity
  imports : s.imports =
    Site.imported ((past.filterMap Visit.entered?).flatMap fun i => (g.node i).sites)
  named : WellNamed s.imports
  entered : ∀ i name js, .enter i ∈ past → g.node i = .call name js →
    (name, js.length) ∈ s.imports
  left : ∀ j, .leave j ∈ past → .enter j ∈ past ∧ s.value j < arity + s.instrs.length
  typed : Instr.types? (externs s.imports) (List.replicate arity .f64) s.instrs =
    some (List.replicate (arity + s.instrs.length) .f64)
  calls : s.instrs.filterMap Instr.reference? =
    ((past.filterMap Visit.left?).filterMap fun i => (g.node i).called?).map s.reference

theorem emits_start : Emits g arity [] (start arity) where
  tables := agrees_start arity
  imports := rfl
  named := ⟨by simp [start, Lowering.imports], by simp [start, Lowering.imports]⟩
  entered := by simp
  left := by simp
  typed := by simp [start, Instr.types?]
  calls := rfl

theorem reference_eq_of_prefix (tables : s.Agrees arity) (tables' : s'.Agrees arity)
    (grown : s.imports <+: s'.imports) {name : String} {n : Nat}
    (imported : (name, n) ∈ s.imports) : s'.reference name = s.reference name := by
  have named : name ∈ s.imports.map (·.1) := List.mem_map_of_mem imported
  have named' : name ∈ s'.imports.map (·.1) := (grown.map _).subset named
  obtain ⟨more, same⟩ := grown
  rw [tables.reference_eq named, tables'.reference_eq named', ← same, List.map_append,
    List.idxOf_append_of_mem named]

namespace Emits

theorem map_reference (h : Emits g arity past s) (tables : s'.Agrees arity)
    (grown : s.imports <+: s'.imports) :
    ((past.filterMap Visit.left?).filterMap fun i => (g.node i).called?).map s'.reference =
      ((past.filterMap Visit.left?).filterMap fun i => (g.node i).called?).map s.reference := by
  -- The names called by the nodes left are imported, so their references stay.
  apply List.map_congr_left
  intro name called
  obtain ⟨j, left, called⟩ := List.mem_filterMap.mp called
  cases kind : g.node j with
  | call other js =>
    rw [kind] at called
    cases called
    have entered := (h.left j (Visit.mem_filterMap_left.mp left)).1
    exact reference_eq_of_prefix h.tables tables grown (h.entered j name js entered kind)
  | var _ | const _ | neg _ | binary _ _ _ =>
    rw [kind] at called
    cases called

theorem enter (h : Emits g arity past s) (taken : step g t params s (.enter i) = .ok s') :
    Emits g arity (past ++ [.enter i]) s' := by
  have grown := imports_prefix_of_step taken
  have lefts : (past ++ [Visit.enter i]).filterMap Visit.left? = past.filterMap Visit.left? := by
    simp
  have enters : (past ++ [Visit.enter i]).filterMap Visit.entered? =
      past.filterMap Visit.entered? ++ [i] := by simp
  have next : s'.instrs = s.instrs ∧ s'.value = s.value ∧ WellNamed s'.imports ∧
      s'.imports = (g.node i).sites.foldl Site.addTo s.imports ∧
      ∀ name js, g.node i = .call name js → (name, js.length) ∈ s'.imports := by
    obtain ⟨name, js, kind, declared⟩ | ⟨noCall, rfl⟩ := step_enter_cases taken
    · obtain ⟨named, imported⟩ := h.named.declare declared
      obtain ⟨-, -, instrs, value, changed⟩ := declare_cases declared
      refine ⟨instrs, value, named, ?_, ?_⟩
      · rw [kind]
        show s'.imports = if _ then _ else _
        rcases changed with ⟨known, same⟩ | ⟨new, more⟩
        · rw [if_pos (List.mem_map.mpr ⟨_, known, rfl⟩), same]
        · rw [if_neg new, more]
      · intro name' js' kind'
        rw [kind] at kind'
        cases kind'
        exact imported
    · refine ⟨rfl, rfl, h.named, ?_, fun name js kind => absurd kind (noCall name js)⟩
      cases kind : g.node i with
      | call name js => exact absurd kind (noCall name js)
      | var _ | const _ | neg _ | binary _ _ _ => rfl
  obtain ⟨instrs, value, named, imports, imported⟩ := next
  have tables := h.tables.step taken
  refine ⟨tables, ?_, named, ?_, ?_, ?_, ?_⟩
  · rw [enters, List.flatMap_append, Site.imported_append, ← h.imports, List.flatMap_singleton,
      imports]
  · intro j name js entered kind
    rcases List.mem_append.mp entered with before | here
    · exact grown.subset (h.entered j name js before kind)
    · cases List.mem_singleton.mp here
      exact imported name js kind
  · intro j left
    have before := h.left j (by simpa using left)
    rw [instrs, value]
    exact ⟨List.mem_append_left _ before.1, before.2⟩
  · rw [instrs]
    exact Instr.types?_mono (prefix_externs grown) h.typed
  · rw [instrs, lefts, h.calls, h.map_reference tables grown]

theorem type?_instr (h : Emits g arity past s) {instr : Instr}
    (operands : ∀ j ∈ (g.node i).operands, .leave j ∈ past) (entered : .enter i ∈ past)
    (chosen : s.instr? (g.node i) = some instr) :
    instr.type? (externs s.imports) (List.replicate (arity + s.instrs.length) .f64) =
      some .f64 := by
  have value : ∀ j ∈ (g.node i).operands,
      (List.replicate (arity + s.instrs.length) Ty.f64)[s.value j]? = some .f64 :=
    fun j hj => List.getElem?_replicate_of_lt (h.left j (operands j hj)).2
  cases kind : g.node i with
  | var v =>
    rw [kind] at chosen
    cases chosen
  | const c =>
    rw [kind] at chosen
    cases chosen
    rfl
  | neg a =>
    rw [kind] at chosen
    cases chosen
    exact if_pos (value a (by simp [kind, Node.operands]))
  | binary op a b =>
    rw [kind] at chosen
    cases chosen
    exact if_pos ⟨value a (by simp [kind, Node.operands]), value b (by simp [kind, Node.operands])⟩
  | call name js =>
    have imported := h.entered i name js entered kind
    rw [kind] at chosen value
    cases chosen
    have referred : (externs s.imports)[s.reference name]? =
        some ⟨.declaration 0 (s.reference name + 1), .f64 js.length⟩ := by
      rw [getElem?_externs, h.named.getElem?_reference h.tables imported List.prefix_rfl]
      rfl
    rw [Instr.type?, referred]
    refine if_pos ?_
    rw [List.map_map, Signature.f64, List.map_replicate, List.map_eq_replicate_iff]
    exact value

theorem leave (h : Emits g params.length past s)
    (operands : ∀ j ∈ (g.node i).operands, .leave j ∈ past) (entered : .enter i ∈ past)
    (taken : step g t params s (.leave i) = .ok s') :
    Emits g params.length (past ++ [.leave i]) s' := by
  have enters : (past ++ [Visit.leave i]).filterMap Visit.entered? =
      past.filterMap Visit.entered? := by simp
  have lefts : (past ++ [Visit.leave i]).filterMap Visit.left? =
      past.filterMap Visit.left? ++ [i] := by simp
  have before : ∀ j name js, .enter j ∈ past ++ [Visit.leave i] → g.node j = .call name js →
      (name, js.length) ∈ s.imports :=
    fun j name js entered kind => h.entered j name js (by simpa using entered) kind
  have tables := h.tables.step taken
  obtain ⟨v, k, kind, found, rfl⟩ | ⟨instr, chosen, rfl⟩ := step_leave_cases taken
  · refine ⟨tables, by rw [enters]; exact h.imports, h.named, before, ?_, h.typed, ?_⟩
    · intro j left
      by_cases same : j = i
      · have bound := (List.findIdx?_eq_some_iff_getElem.mp found).1
        rw [same]
        refine ⟨List.mem_append_left _ entered, ?_⟩
        simp only [Assignment.set_self]
        omega
      · have earlier := h.left j (by simpa [same] using left)
        simp only [Assignment.set_of_ne _ _ same]
        exact ⟨List.mem_append_left _ earlier.1, earlier.2⟩
    · rw [lefts, List.filterMap_append, List.map_append]
      simp only [List.filterMap_cons, kind, Node.called?, List.filterMap_nil, List.map_nil,
        List.append_nil]
      exact h.calls
  · have one : [instr].filterMap Instr.reference? =
        ([i].filterMap fun i => (g.node i).called?).map s.reference := by
      cases kind : g.node i with
      | var _ =>
        rw [kind] at chosen
        cases chosen
      | const _ | neg _ | binary _ _ _ | call _ _ =>
        rw [kind] at chosen
        cases chosen
        simp [kind, Node.called?, Instr.reference?]
    refine ⟨tables, by rw [enters]; exact h.imports, h.named, before, ?_, ?_, ?_⟩
    · intro j left
      simp only [emit, List.length_append, List.length_singleton]
      by_cases same : j = i
      · rw [same, Assignment.set_self]
        exact ⟨List.mem_append_left _ entered, by omega⟩
      · have earlier := h.left j (by simpa [same] using left)
        rw [Assignment.set_of_ne _ _ same]
        exact ⟨List.mem_append_left _ earlier.1, by omega⟩
    · have typed := Instr.types?_concat h.typed (h.type?_instr operands entered chosen)
      rw [← List.replicate_succ', Nat.add_assoc] at typed
      rw [imports_emit]
      simpa only [emit, List.length_append, List.length_singleton] using typed
    · rw [lefts, List.filterMap_append, List.map_append]
      show (s.instrs ++ [instr]).filterMap Instr.reference? = _
      rw [List.filterMap_append, h.calls, one]
      rfl

theorem again (h : Emits g arity past s) (notes : List Note) :
    Emits g arity (past ++ [.again i]) { s with notes } := by
  have enters : (past ++ [Visit.again i]).filterMap Visit.entered? =
      past.filterMap Visit.entered? := by simp
  have lefts : (past ++ [Visit.again i]).filterMap Visit.left? = past.filterMap Visit.left? := by
    simp
  refine ⟨⟨h.tables.declared, h.tables.referred, h.tables.named⟩, by rw [enters]; exact h.imports,
    h.named, ?_, ?_, h.typed, by rw [lefts]; exact h.calls⟩
  · exact fun j name js entered kind => h.entered j name js (by simpa using entered) kind
  · intro j left
    have before := h.left j (by simpa using left)
    exact ⟨List.mem_append_left _ before.1, before.2⟩

theorem visits {vs : List Visit} {final : Lowering} (h : Emits g params.length past s)
    (ordered : g.Ordered past vs)
    (run : foldUntil (step g t params) s vs = (final, none)) :
    Emits g params.length (past ++ vs) final := by
  induction vs generalizing past s with
  | nil =>
    cases run
    simpa using h
  | cons v vs ih =>
    obtain ⟨s', taken, rest⟩ := foldUntil_cons_none run
    have next : Emits g params.length (past ++ [v]) s' := by
      cases v with
      | enter i => exact h.enter taken
      | leave i => exact h.leave ordered.1.2.2 ordered.1.1 taken
      | again i =>
        cases taken
        exact h.again _
    rw [List.append_cons]
    exact ih next ordered.2 rest

end Emits

theorem emits_of_walk {root : Nat}
    (run : foldUntil (step g t params) (.start params.length) (g.visits root) = (s, none)) :
    Emits g params.length (g.visits root) s :=
  emits_start.visits (g.ordered_visits root) run

theorem imports_of_walk {root : Nat}
    (run : foldUntil (step g t params) (.start params.length) (g.visits root) = (s, none)) :
    s.imports = Site.imported (g.expr root).sites := by
  have met : (g.visits root).filterMap Visit.entered? = appendNew [] (g.treePreorder root) :=
    g.preorder_eq root
  rw [(emits_of_walk run).imports, met, Site.imported_appendNew, g.sites_expr_eq]
  rfl

end Lowering
end ExprCompiler
