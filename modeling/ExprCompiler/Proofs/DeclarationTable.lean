import ExprCompiler.Proofs.Linearisation

/-! The declarations of a lowered unit. The callee comes first, then one import for
each name that is called, in the order in which the tree is read, then the caller if
there is one. Names are imported on the way down and calls are emitted on the way up;
all the same every call refers to the import of its own name. -/
namespace ExprCompiler

def Expr.calls : Expr → List (String × Nat) :=
  Expr.fold
    { var := fun _ => []
      const := fun _ => []
      neg := id
      binary := fun _ a b => a ++ b
      call := fun name args => (name, args.length) :: args.flatten }

def Site.asCall? : Site → Option (String × Nat)
  | .call name n => some (name, n)
  | .var _ => none

theorem Expr.calls_call (name : String) (args : List Expr) :
    (call name args).calls = (name, args.length) :: args.flatMap calls := by
  simp only [calls, fold_call, List.length_map, List.flatMap_def]

theorem Expr.calls_eq (e : Expr) : e.calls = e.sites.filterMap Site.asCall? := by
  induction e with
  | var v => rfl
  | const c => rfl
  | neg a ih => exact ih
  | binary op a b left right =>
    show a.calls ++ b.calls = (a.sites ++ b.sites).filterMap Site.asCall?
    rw [List.filterMap_append, left, right]
  | call name args ih =>
    have here : (Site.call name args.length).asCall? = some (name, args.length) := rfl
    rw [calls_call, sites_call, List.filterMap_cons_some here, List.filterMap_flatMap,
      List.flatMap_def, List.flatMap_def, List.map_congr_left ih]

section EraseDups

variable [BEq α] [LawfulBEq α] {xs : List α} {x : α}

theorem eraseDups_concat_of_mem (known : x ∈ xs) : (xs ++ [x]).eraseDups = xs.eraseDups := by
  simp [List.eraseDups_append, List.removeAll, known]

theorem eraseDups_concat_of_notMem (new : x ∉ xs) :
    (xs ++ [x]).eraseDups = xs.eraseDups ++ [x] := by
  simp [List.eraseDups_append, List.removeAll, new, List.eraseDups_cons]

end EraseDups

namespace Site

variable {xs : List Site}

theorem mem_filterMap_asCall? {name : String} {n : Nat} :
    (name, n) ∈ xs.filterMap asCall? ↔ call name n ∈ xs := by
  rw [List.mem_filterMap]
  constructor
  · rintro ⟨x, hx, same⟩
    cases x with
    | var v => cases same
    | call other m =>
      cases same
      exact hx
  · exact fun h => ⟨call name n, h, rfl⟩

theorem imported_eq_eraseDups
    (agreed : ∀ name n m, call name n ∈ xs → call name m ∈ xs → n = m) :
    imported xs = (xs.filterMap asCall?).eraseDups := by
  induction xs using List.reverseRecOn with
  | nil => rfl
  | append_singleton xs x ih =>
    have before : imported xs = (xs.filterMap asCall?).eraseDups := by
      apply ih
      intro name n m first second
      exact agreed name n m (List.mem_append_left _ first) (List.mem_append_left _ second)
    rw [imported_concat, List.filterMap_append]
    cases x with
    | var v => rwa [List.filterMap_cons_none rfl, List.filterMap_nil, List.append_nil]
    | call name n =>
      have known : name ∈ (imported xs).map (·.1) ↔ (name, n) ∈ xs.filterMap asCall? := by
        rw [mem_filterMap_asCall?]
        constructor
        · intro named
          obtain ⟨p, first, same⟩ := List.mem_map.mp named
          have earlier : call name p.2 ∈ xs := same ▸ call_mem_of_imported first
          rwa [agreed name n p.2 (by simp) (List.mem_append_left _ earlier)]
        · exact name_mem_imported
      have here : [call name n].filterMap asCall? = [(name, n)] := rfl
      rw [here, addTo]
      split
      · next named => rw [eraseDups_concat_of_mem (known.mp named), before]
      · next new => rw [eraseDups_concat_of_notMem (mt known.mpr new), before]

end Site

def Declaration.table (arity : Nat) (calls : List (String × Nat)) (used : Strategy) :
    List Declaration :=
  ⟨calleeName, .own, .f64 arity⟩ ::
    (calls.eraseDups.map fun p => ⟨p.1, .imported, .f64 p.2⟩) ++
      if used = .buffer then [⟨callerName, .own, .f64 0⟩] else []

theorem Graph.calls_lowered (g : Graph) (root : Nat) (folded : Bool) :
    ((g.lowered root folded).1.expr (g.lowered root folded).2).calls = (g.expr root).calls := by
  rw [Expr.calls_eq, Expr.calls_eq, sites_lowered]

namespace Lowering

variable {g : Graph} {t : SymbolTable} {params : List Variable} {root : Nat} {s : Lowering}

theorem imports_eq_calls
    (run : foldUntil (step g t params) (.start params.length) (g.visits root) = (s, none)) :
    s.imports = (g.expr root).calls.eraseDups := by
  have emits := emits_of_walk run
  have counted (name : String) (n : Nat) (called : .call name n ∈ (g.expr root).sites) :
      (name, n) ∈ s.imports := by
    obtain ⟨i, args, below, kind, rfl⟩ := (g.mem_sites_call_iff root name n).mp called
    have entered := ((g.ordered_visits root).closed (g.leave_root_mem root) below).1
    exact emits.entered i name args entered kind
  rw [imports_of_walk run, Expr.calls_eq]
  apply Site.imported_eq_eraseDups
  intro name n m first second
  have same := List.inj_on_of_nodup_map emits.named.distinct (counted name n first)
    (counted name m second) rfl
  exact congrArg Prod.snd same

theorem references_caller {n : Nat} (tables : s.Agrees n) (id : Nat) (used : Strategy) :
    ((s.finish id n root used).function? callerName).map (·.references) =
      if used = .buffer then some [⟨.declaration 0 0, .f64 n⟩] else none := by
  have apart : calleeName ≠ callerName := by decide
  rw [CompilationUnit.function?, bodies_finish tables, List.find?_cons_of_neg]
  · split
    · next buffered =>
      subst buffered
      rw [List.find?_cons_of_pos (by simp [declarations_caller tables])]
      rfl
    · rfl
  · simp [declarations_callee tables, apart]

theorem Lists.getElem?_instrs (lists : Lists g root params s.reference (g.visits root) s)
    (k : Nat) : s.instrs[k]?.map some = (g.computed root)[k]?.map fun i =>
      (g.node i).instr? (g.valueNumber root params) s.reference := by
  have emitted := congrArg (·[k]?) lists.instrs
  simpa only [List.getElem?_map, ← Graph.computed_eq] using emitted

theorem Lists.call (lists : Lists g root params s.reference (g.visits root) s)
    {k r : Nat} {values : List Nat} (here : s.instrs[k]? = some (.call r values)) :
    ∃ i name args, (g.computed root)[k]? = some i ∧ g.node i = .call name args ∧
      r = s.reference name ∧ values.length = args.length := by
  have emitted := lists.getElem?_instrs k
  rw [here, Option.map_some] at emitted
  obtain ⟨i, place, chosen⟩ := Option.map_eq_some_iff.mp emitted.symm
  cases kind : g.node i with
  | call name args =>
    rw [kind] at chosen
    cases chosen
    exact ⟨i, name, args, place, kind, rfl, List.length_map _⟩
  | var _ | const _ | neg _ | binary _ _ _ =>
    rw [kind] at chosen
    cases chosen

theorem Lists.call_of_node (lists : Lists g root params s.reference (g.visits root) s)
    {k i : Nat} {name : String} {args : List Nat} (place : (g.computed root)[k]? = some i)
    (kind : g.node i = .call name args) : ∃ r values, s.instrs[k]? = some (.call r values) := by
  have emitted := lists.getElem?_instrs k
  rw [place, Option.map_some, kind] at emitted
  obtain ⟨instr, here, same⟩ := Option.map_eq_some_iff.mp emitted
  cases same
  exact ⟨_, _, here⟩

end Lowering

/-- The declarations of a lowered unit are the callee, the names called in the tree in
the order in which it is read, each once and with its number of arguments, and for the
buffer the caller. Reference `k` of the callee is the import after the `k` others. A
call among its instructions is that of a node, refers to the import of the name that
the node calls, and passes as many arguments as this one takes. The caller refers to
the callee alone. -/
theorem Graph.unit_declares_calls {g h : Graph} {root top : Nat} {folded : Bool}
    {t : SymbolTable} {id : Nat} {params : List Variable} {strategy : Strategy}
    {u : CompilationUnit} (expr : g.lowered root folded = (h, top))
    (lowered : (g.lower root folded t id params strategy).result = .ok u) :
    strategy.resolve params.length = .ok u.strategy ∧
      u.declarations = Declaration.table params.length (g.expr root).calls u.strategy ∧
      ((g.expr root).calls.eraseDups.map (·.1)).Nodup ∧
      (h.expr top).calls = (g.expr root).calls ∧
      ((u.function? callerName).map (·.references) =
        if u.strategy = .buffer then some [⟨.declaration 0 0, .f64 params.length⟩] else none) ∧
      ∃ callee block, u.function? calleeName = some callee ∧ callee.block = some block ∧
        (∀ k : Nat, callee.references[k]? = (g.expr root).calls.eraseDups[k]?.map fun p =>
          ⟨.declaration 0 (k + 1), .f64 p.2⟩) ∧
        (∀ (k r : Nat) (values : List Nat), block.instrs[k]? = some (.call r values) →
          ∃ i name args, (h.computed top)[k]? = some i ∧ h.node i = .call name args ∧
            values.length = args.length ∧
            callee.references[r]? = some ⟨.declaration 0 (r + 1), .f64 args.length⟩ ∧
            u.declarations[r + 1]? = some ⟨name, .imported, .f64 args.length⟩) ∧
        ∀ i name args, h.Reaches top i → h.node i = .call name args →
          ∃ (k r : Nat) (values : List Nat),
            (h.computed top)[k]? = some i ∧ block.instrs[k]? = some (.call r values) := by
  obtain ⟨used, s, resolved, -, walked, rfl⟩ := lower_cases lowered
  have calls := g.calls_lowered root folded
  rw [expr] at walked calls ⊢
  have imports := (Lowering.imports_eq_calls walked).trans (congrArg List.eraseDups calls)
  have emits := Lowering.emits_of_walk walked
  have lists := Lowering.lists_of_walk walked
  have fields := s.fields_finish id params.length top used
  rw [fields.2.2]
  refine ⟨resolved, ?_, ?_, calls, Lowering.references_caller emits.tables id used, ?_⟩
  · rw [Lowering.declarations_finish emits.tables, imports]
    rfl
  · rw [← imports]
    exact emits.named.distinct
  refine ⟨s.callee params.length top, _, Lowering.function_callee emits.tables id used,
    rfl, ?_, ?_, ?_⟩
  · intro k
    rw [Lowering.references_callee emits.tables, Lowering.getElem?_externs, imports]
  · intro k r values here
    obtain ⟨i, name, args, place, kind, rfl, counted⟩ := lists.call here
    have below := (mem_computed.mp (List.mem_of_getElem? place)).1
    have entered := ((h.ordered_visits top).closed (h.leave_root_mem top) below).1
    have import_ := emits.named.getElem?_reference emits.tables
      (emits.entered i name args entered kind) List.prefix_rfl
    refine ⟨i, name, args, place, kind, counted, ?_,
      Lowering.declarations_import emits.tables import_⟩
    rw [Lowering.references_callee emits.tables, Lowering.getElem?_externs, import_]
    rfl
  · intro i name args below kind
    have computed : i ∈ h.computed top := mem_computed.mpr ⟨below, by rw [kind]; rfl⟩
    obtain ⟨k, place⟩ := List.mem_iff_getElem?.mp computed
    obtain ⟨r, values, here⟩ := lists.call_of_node place kind
    exact ⟨k, r, values, place, here⟩

def nestedCallers : Graph :=
  ⟨#[.var ⟨0, "x"⟩, .call callerName [0, 0], .call calleeName [1], .call callerName [2, 1],
    .const 1.0, .binary .mul 3 4], by decide⟩

/-- The outermost call is emitted last, and its name is imported first. -/
theorem nestedCallers_unit_declares_calls :
    ∃ u callee block r values,
      (nestedCallers.lower 5 true (.builtinsOnly .standard) 7 [⟨0, "x"⟩] .buffer).result = .ok u ∧
      u.declarations = [⟨calleeName, .own, .f64 1⟩, ⟨callerName, .imported, .f64 2⟩,
        ⟨calleeName, .imported, .f64 1⟩, ⟨callerName, .own, .f64 0⟩] ∧
      (u.function? callerName).map (·.references) = some [⟨.declaration 0 0, .f64 1⟩] ∧
      u.function? calleeName = some callee ∧ callee.block = some block ∧
      callee.references[0]? = some ⟨.declaration 0 1, .f64 2⟩ ∧
      callee.references[1]? = some ⟨.declaration 0 2, .f64 1⟩ ∧
      block.instrs[1]? = some (.call r values) ∧
      u.declarations[r + 1]? = some ⟨calleeName, .imported, .f64 1⟩ := by
  obtain ⟨u, lowered⟩ := exists_of_isOk (show
    (nestedCallers.lower 5 true (.builtinsOnly .standard) 7 [⟨0, "x"⟩] .buffer).result.isOk =
      true by decide +kernel)
  obtain ⟨resolved, declared, -, -, shim, callee, block, found, ends, references, calls, nodes⟩ :=
    Graph.unit_declares_calls (show nestedCallers.lowered 5 true =
      ((nestedCallers.lowered 5 true).1, (nestedCallers.lowered 5 true).2) from rfl) lowered
  have used : u.strategy = .buffer := (Except.ok.inj resolved).symm
  have order : (nestedCallers.expr 5).calls.eraseDups = [(callerName, 2), (calleeName, 1)] := by
    decide +kernel
  have computed : (nestedCallers.lowered 5 true).1.computed (nestedCallers.lowered 5 true).2 =
      [1, 2, 3] := by decide +kernel
  have kind : (nestedCallers.lowered 5 true).1.node 2 = .call calleeName [1] := by decide +kernel
  have below := (Graph.mem_computed.mp (computed ▸ show 2 ∈ [1, 2, 3] by decide)).1
  obtain ⟨k, r, values, place, here⟩ := nodes 2 calleeName [1] below kind
  obtain ⟨i, name, args, place', kind', -, -, refers⟩ := calls k r values here
  cases place.symm.trans place'
  cases kind.symm.trans kind'
  rw [computed] at place
  have second : 1 = k :=
    (List.getElem?_inj (show 1 < [1, 2, 3].length by decide) (by decide)).mp place.symm
  subst second
  rw [used, Declaration.table, order] at declared
  rw [used, if_pos rfl] at shim
  rw [order] at references
  exact ⟨u, callee, block, r, values, lowered, declared, shim, found, ends, references 0,
    references 1, here, refers⟩

end ExprCompiler
