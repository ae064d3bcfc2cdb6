import ExprCompiler.Proofs.Compilation
import ExprCompiler.Proofs.Emission
import ExprCompiler.Symbol.Catalogue

/-! What lowering makes goes through verification, and linking it can fail in one
way only: an import is not found. Declarations are named by number in references,
by name in symbols and by place in the list; for a lowered unit these agree,
because imported names are distinct and stand between the two functions of the
unit's own. -/
namespace ExprCompiler

theorem firstError_cons_eq_error_iff {r : Except ε α} {rs : List (Except ε α)} {e : ε} :
    firstError (r :: rs) = .error e ↔
      r = .error e ∨ (∃ a, r = .ok a) ∧ firstError rs = .error e := by
  rw [firstError]
  cases r with
  | error e' => simp [bind, Except.bind]
  | ok a => cases firstError rs <;> simp [bind, Except.bind, pure, Except.pure]

theorem firstError_map_eq_error_iff {f : α → Except ε β} {xs : List α} {e : ε} :
    firstError (xs.map f) = .error e ↔
      ∃ before x after, xs = before ++ x :: after ∧ (∀ y ∈ before, ∃ b, f y = .ok b) ∧
        f x = .error e := by
  induction xs with
  | nil => simp [firstError]
  | cons x xs ih =>
    rw [List.map_cons, firstError_cons_eq_error_iff, ih]
    constructor
    · rintro (wrong | ⟨first, before, y, after, rfl, fine, wrong⟩)
      · exact ⟨[], x, xs, rfl, by simp, wrong⟩
      · exact ⟨x :: before, y, after, rfl, List.forall_mem_cons.mpr ⟨first, fine⟩, wrong⟩
    · rintro ⟨before, y, after, split, fine, wrong⟩
      cases before with
      | nil =>
        cases split
        exact .inl wrong
      | cons z before =>
        cases split
        obtain ⟨first, fine⟩ := List.forall_mem_cons.mp fine
        exact .inr ⟨first, before, y, after, rfl, fine, wrong⟩

theorem exists_firstError_map_iff {f : α → Except ε β} {xs : List α} :
    (∃ bs, firstError (xs.map f) = .ok bs) ↔ ∀ x ∈ xs, ∃ b, f x = .ok b := by
  induction xs with
  | nil => simp [firstError]
  | cons x xs ih =>
    rw [List.map_cons, firstError, List.forall_mem_cons, ← ih]
    cases f x with
    | error e => simp [bind, Except.bind]
    | ok b => cases firstError (xs.map f) <;> simp [bind, Except.bind, pure, Except.pure]

namespace SymbolTable

variable {t : SymbolTable} {name : String} {arity : Nat}

inductive Lacks (t : SymbolTable) (name : String) (arity : Nat) : Error → Prop
  | otherArity {f : Intrinsic} (known : t.known? name = some f) (other : f.arity ≠ arity) :
      Lacks t name arity (.unresolvedSymbol name (some arity))
  | nowhere (unknown : t.known? name = none)
      (absent : t.host = true → t.platform.symbol? name = none) :
      Lacks t name arity (.unresolvedSymbol name none)

theorem resolve_of_known {f : Intrinsic} (arity : Nat) (known : t.known? name = some f) :
    t.resolve name arity =
      if f.arity = arity then
        .ok ⟨if (t.platform.builtin? name).isSome then .builtin else .registered, f.native⟩
      else .error (.unresolvedSymbol name (some arity)) := by
  unfold known? at known
  unfold resolve
  cases built : t.platform.builtin? name with
  | some i =>
    rw [built, Option.some_or] at known
    cases known
    rfl
  | none =>
    rw [built, Option.none_or] at known
    rw [known]
    rfl

theorem resolve_of_unknown (unknown : t.known? name = none) :
    t.resolve name arity =
      (if t.host then t.platform.symbol? name else none).elim (.error (.unresolvedSymbol name none))
        fun native => .ok ⟨.host, native⟩ := by
  unfold known? at unknown
  rw [Option.or_eq_none_iff] at unknown
  simp only [resolve, unknown.1, unknown.2]
  cases (if t.host then t.platform.symbol? name else none) <;> rfl

theorem lacks_iff_of_known {f : Intrinsic} {e : Error} (known : t.known? name = some f) :
    t.Lacks name arity e ↔ f.arity ≠ arity ∧ e = .unresolvedSymbol name (some arity) := by
  constructor
  · intro lacks
    cases lacks with
    | otherArity known' other =>
      cases known.symm.trans known'
      exact ⟨other, rfl⟩
    | nowhere unknown _ => cases known.symm.trans unknown
  · rintro ⟨other, rfl⟩
    exact .otherArity known other

theorem lacks_iff_of_unknown {e : Error} (unknown : t.known? name = none) :
    t.Lacks name arity e ↔
      (t.host = true → t.platform.symbol? name = none) ∧ e = .unresolvedSymbol name none := by
  constructor
  · intro lacks
    cases lacks with
    | otherArity known _ => cases unknown.symm.trans known
    | nowhere _ absent => exact ⟨absent, rfl⟩
  · rintro ⟨absent, rfl⟩
    exact .nowhere unknown absent

theorem resolve_eq_error_iff {e : Error} :
    t.resolve name arity = .error e ↔ t.Lacks name arity e := by
  cases known : t.known? name with
  | some f =>
    rw [lacks_iff_of_known known, resolve_of_known arity known]
    by_cases same : f.arity = arity
    · simp [same]
    · simp [same, eq_comm]
  | none =>
    have absent : (t.host = true → t.platform.symbol? name = none) ↔
        (if t.host then t.platform.symbol? name else none) = none := by
      cases t.host <;> simp
    rw [lacks_iff_of_unknown known, resolve_of_unknown known, absent]
    cases (if t.host then t.platform.symbol? name else none) with
    | some native => simp
    | none => simp [eq_comm]

theorem Lacks.message {e : Error} (lacks : t.Lacks name arity e) :
    e.message = "unresolved symbol: " ++
      if (t.known? name).isSome then name ++ "/" ++ toString arity else name := by
  cases lacks with
  | otherArity known _ =>
    rw [known, Option.isSome_some, if_pos rfl]
    show "unresolved symbol: " ++ name ++ "/" ++ toString arity = _
    rw [String.append_assoc, String.append_assoc, String.append_assoc]
  | nowhere unknown _ =>
    rw [unknown]
    rfl

end SymbolTable

namespace Instr

theorem types?_loads (references : List FunctionRef) {types : List Ty}
    (base : types[0]? = some .i64) (offset : Nat → Int32) (is : List Nat) :
    types? references types (is.map fun i => .load 0 (offset i)) =
      some (types ++ List.replicate is.length .f64) := by
  induction is generalizing types with
  | nil => simp [types?]
  | cons i is ih =>
    have base' : (types ++ [Ty.f64])[0]? = some .i64 := by
      rw [List.getElem?_append_left (List.getElem?_eq_some_iff.mp base).1, base]
    rw [List.map_cons, types?, type?, if_pos base]
    simp [ih base', List.replicate_succ]

end Instr

namespace Lowering

variable {s : Lowering} {id n root : Nat} {used : Strategy}

theorem declarations_at (tables : s.Agrees n) (k : Nat) (d : Declaration)
    (declared : (s.finish id n root used).declarations[k]? = some d) :
    (k = 0 ∧ d = ⟨calleeName, .own, .f64 n⟩) ∨
      (∃ j name m, k = j + 1 ∧ s.imports[j]? = some (name, m) ∧ d = ⟨name, .imported, .f64 m⟩) ∨
      (used = .buffer ∧ k = s.imports.length + 1 ∧ d = ⟨callerName, .own, .f64 0⟩) := by
  rw [declarations_finish tables, List.cons_append] at declared
  cases k with
  | zero =>
    cases declared
    exact .inl ⟨rfl, rfl⟩
  | succ j =>
    rw [List.getElem?_cons_succ, List.getElem?_append] at declared
    split at declared
    · rw [List.getElem?_map] at declared
      obtain ⟨⟨name, m⟩, imported, rfl⟩ := Option.map_eq_some_iff.mp declared
      exact .inr (.inl ⟨j, name, m, rfl, imported, rfl⟩)
    · next beyond =>
      by_cases buffered : used = .buffer
      · rw [if_pos buffered, List.getElem?_singleton] at declared
        split at declared
        · next last =>
          cases declared
          rw [List.length_map] at beyond last
          exact .inr (.inr ⟨buffered, by omega, rfl⟩)
        · cases declared
      · simp [buffered] at declared

theorem imports_finish (tables : s.Agrees n) : (s.finish id n root used).imports =
    s.imports.map fun p => ⟨p.1, .imported, .f64 p.2⟩ := by
  have all : (s.imports.map fun p => Declaration.mk p.1 .imported (.f64 p.2)).filter
      (·.linkage = .imported) = s.imports.map fun p => ⟨p.1, .imported, .f64 p.2⟩ := by
    rw [List.filter_eq_self]
    intro d hd
    obtain ⟨p, -, rfl⟩ := List.mem_map.mp hd
    simp
  rw [CompilationUnit.imports, declarations_finish tables, List.filter_append,
    List.filter_cons_of_neg (by simp), all]
  split <;> simp

theorem bodyCount_finish (tables : s.Agrees n) (k : Nat) :
    (s.finish id n root used).bodyCount k =
    if k = 0 ∨ used = .buffer ∧ k = s.imports.length + 1 then 1 else 0 := by
  rw [CompilationUnit.bodyCount, bodies_finish tables]
  by_cases first : k = 0
  · subst first
    by_cases buffered : used = .buffer <;> simp [buffered]
  · by_cases buffered : used = .buffer
    · by_cases last : k = s.imports.length + 1
      · simp [buffered, last]
      · simp [buffered, first, last, Ne.symm first, Ne.symm last]
    · simp [buffered, first, Ne.symm first]

theorem declarationFaults_finish (tables : s.Agrees n) (k : Nat) (d : Declaration)
    (declared : (s.finish id n root used).declarations[k]? = some d) :
    (s.finish id n root used).declarationFaults k d = [] := by
  -- Each function of its own has one body, each import has none.
  unfold CompilationUnit.declarationFaults
  rw [bodyCount_finish tables]
  obtain ⟨rfl, rfl⟩ | ⟨j, name, m, rfl, imported, rfl⟩ | ⟨buffered, rfl, rfl⟩ :=
    declarations_at tables k d declared
  · simp [Signature.f64]
  · have inside := (List.getElem?_eq_some_iff.mp imported).1
    have apart : j ≠ s.imports.length := by omega
    simp [Signature.f64, apart]
  · simp [Signature.f64, buffered]

theorem fits_callee {g : Graph} (h : Emits g n (g.visits root) s) :
    (Block.mk (List.replicate n .f64) s.instrs (some [s.value root])).fits (.f64 n)
      (externs s.imports) = true := by
  have returned := (h.left root (g.leave_root_mem root)).2
  simp [Block.fits, h.typed, Signature.f64, List.getElem?_replicate_of_lt returned]

theorem bodyFaults_callee {g : Graph} (h : Emits g n (g.visits root) s) :
    (s.finish id n root used).bodyFaults 0 (s.callee n root) = [] := by
  have references : ∀ p ∈ (s.callee n root).references.zipIdx,
      (s.finish id n root used).referenceFaults calleeName p.2 p.1 = [] := by
    intro p hp
    rw [List.mem_zipIdx_iff_getElem?, references_callee h.tables, getElem?_externs] at hp
    obtain ⟨⟨name, m⟩, imported, same⟩ := Option.map_eq_some_iff.mp hp
    rw [← same]
    simp [CompilationUnit.referenceFaults, declarations_import h.tables imported]
  have fits : (Block.mk (List.replicate n .f64) s.instrs (some [s.value root])).fits (.f64 n)
      (s.callee n root).references = true := references_callee h.tables ▸ fits_callee h
  unfold CompilationUnit.bodyFaults
  rw [declarations_callee h.tables]
  simp only [List.append_eq_nil_iff]
  exact ⟨⟨if_pos rfl, if_pos fits⟩, List.flatMap_eq_nil_iff.mpr references⟩

theorem fits_caller (index n : Nat) : ∃ block, (caller index n).block = some block ∧
    block.fits (.f64 0) (caller index n).references = true := by
  refine ⟨_, rfl, ?_⟩
  have base : [Ty.i64][0]? = some .i64 := rfl
  have loads := Instr.types?_loads (caller index n).references base
    (fun i => Int32.ofNat (8 * i)) (List.range n)
  have passed : ((List.range n).map (· + 1)).map (([Ty.i64] ++ List.replicate n .f64)[·]?) =
      (Signature.f64 n).params.map some := by
    apply List.ext_getElem
    · simp [Signature.f64]
    · intro i hi _
      have inside : i < n := by simpa using hi
      simp [Signature.f64, inside]
  have call : (Instr.call 0 ((List.range n).map (· + 1))).type? (caller index n).references
      ([.i64] ++ List.replicate n .f64) = some .f64 := if_pos passed
  rw [List.length_range] at loads
  have typed := Instr.types?_concat loads call
  simp only [Block.fits, List.cons_append, Instr.types?, Instr.type?, List.nil_append, typed]
  simp [Signature.f64]

theorem bodyFaults_caller (tables : s.Agrees n) :
    (s.finish id n root .buffer).bodyFaults (s.imports.length + 1)
      (caller (s.imports.length + 1) n) = [] := by
  obtain ⟨block, has, fits⟩ := fits_caller (s.imports.length + 1) n
  have reference : (s.finish id n root .buffer).referenceFaults callerName 0
      ⟨.declaration 0 0, .f64 n⟩ = [] := by
    simp [CompilationUnit.referenceFaults, declarations_callee tables]
  unfold CompilationUnit.bodyFaults
  rw [declarations_caller tables, has]
  simp only [List.append_eq_nil_iff]
  refine ⟨⟨if_pos rfl, if_pos fits⟩, ?_⟩
  simp [caller, reference]

theorem faults_finish {g : Graph} (h : Emits g n (g.visits root) s) (id : Nat) (used : Strategy) :
    (s.finish id n root used).faults = [] := by
  rw [CompilationUnit.faults, List.append_eq_nil_iff, List.flatMap_eq_nil_iff,
    List.flatMap_eq_nil_iff]
  constructor
  · intro p hp
    exact declarationFaults_finish h.tables p.2 p.1 (List.mem_zipIdx_iff_getElem?.mp hp)
  · intro p hp
    rw [bodies_finish h.tables] at hp
    rcases List.mem_cons.mp hp with rfl | hp
    · exact bodyFaults_callee h
    · by_cases buffered : used = .buffer
      · subst buffered
        cases List.mem_singleton.mp hp
        exact bodyFaults_caller h.tables
      · simp [buffered] at hp

/-- The symbols of a lowered unit are distinct: its own two names are, the names
of its imports are, and one kind is set apart from the other. -/
theorem nodup_symbols (tables : s.Agrees n) (named : WellNamed s.imports) (id root : Nat)
    (used : Strategy) :
    ((s.finish id n root used).declarations.map Declaration.symbol).Nodup := by
  have imports : ((s.imports.map fun p => Declaration.mk p.1 .imported (.f64 p.2)).map
      Declaration.symbol) = (s.imports.map (·.1)).map (Prod.mk .imported) := by
    simp [Function.comp_def, Declaration.symbol]
  have distinct := named.distinct.map (Prod.mk_right_injective Linkage.imported)
  have names : calleeName ≠ callerName := by decide
  rw [declarations_finish tables, List.cons_append, List.map_cons, List.map_append, imports]
  by_cases buffered : used = .buffer
  · have apart : (Linkage.own, callerName) ∉ (s.imports.map (·.1)).map (Prod.mk .imported) := by
      simp
    rw [if_pos buffered, List.nodup_cons, List.nodup_append]
    refine ⟨by simp [Declaration.symbol, names], distinct, by simp, ?_⟩
    intro a imported b own same
    rw [same, List.mem_singleton.mp own] at imported
    exact apart imported
  · simpa [buffered, Declaration.symbol] using distinct

end Lowering

section Outcome

variable {r : Except ε α} {r' : Except ε β} {rs : Except ε (List α)} {rs' : Except ε (List β)}
  {f : α → γ} {f' : β → γ}

theorem error_iff_of_outcome (same : r.map f = r'.map f') (e : ε) :
    r = .error e ↔ r' = .error e := by
  cases r <;> cases r' <;> simp_all [Except.map]

theorem ok_iff_of_outcome (same : r.map f = r'.map f') : (∃ a, r = .ok a) ↔ ∃ b, r' = .ok b := by
  cases r <;> cases r' <;> simp_all [Except.map]

theorem outcome_cons (first : r.map (fun _ => ()) = r'.map fun _ => ())
    (rest : rs.map (fun _ => ()) = rs'.map fun _ => ()) :
    (do return (← r) :: (← rs) : Except ε (List α)).map (fun _ => ()) =
      (do return (← r') :: (← rs') : Except ε (List β)).map fun _ => () := by
  cases r <;> cases r' <;> cases rs <;> cases rs' <;>
    simp_all [Except.map, bind, Except.bind, pure, Except.pure]

end Outcome

theorem firstClash?_eq_none {seen ds : List Declaration}
    (distinct : ((seen ++ ds).map Declaration.symbol).Nodup) : firstClash? seen ds = none := by
  induction ds generalizing seen with
  | nil => rfl
  | cons d ds ih =>
    have new : seen.findIdx? (·.symbol = d.symbol) = none := by
      rw [List.findIdx?_eq_none_iff]
      intro d' earlier
      rw [List.map_append, List.nodup_append] at distinct
      have apart := distinct.2.2 d'.symbol (List.mem_map_of_mem earlier) d.symbol (by simp)
      simpa using apart
    rw [firstClash?, new]
    exact ih (by simpa using distinct)

namespace CompilationUnit

variable {u : CompilationUnit} {t : SymbolTable}

theorem verify_of_faults (sound : u.faults = []) : u.verify = .ok ⟨u, sound⟩ := by
  unfold verify
  split
  · rfl
  · next fault _ wrong =>
    rw [sound] at wrong
    cases wrong

theorem implementation_outcome {index : Nat} {d : Declaration} :
    (u.implementation t index d).map (fun _ => ()) =
      if d.linkage = .imported then
        (t.resolve d.name d.signature.params.length).map fun _ => ()
      else .ok () := by
  unfold implementation
  cases d.linkage with
  | imported => cases t.resolve d.name d.signature.params.length <;> rfl
  | own => cases u.bodies.lookup index <;> rfl

theorem implementations_outcome (index : Nat) (ds : List Declaration) :
    (u.implementations t index ds).map (fun _ => ()) =
      (firstError ((ds.filter (·.linkage = .imported)).map fun d =>
        t.resolve d.name d.signature.params.length)).map fun _ => () := by
  induction ds generalizing index with
  | nil => rfl
  | cons d ds ih =>
    have first : (u.implementation t index d).map (fun _ => ()) = _ := implementation_outcome
    rw [implementations]
    by_cases imported : d.linkage = .imported
    · rw [if_pos imported] at first
      rw [List.filter_cons_of_pos (by simpa using imported), List.map_cons, firstError]
      exact outcome_cons first (ih (index + 1))
    · rw [if_neg imported] at first
      rw [List.filter_cons_of_neg (by simpa using imported), ← ih (index + 1)]
      cases found : u.implementation t index d with
      | error e =>
        rw [found] at first
        cases first
      | ok f => cases u.implementations t (index + 1) ds <;> rfl

theorem link_outcome (distinct : (u.declarations.map Declaration.symbol).Nodup) :
    (u.link t).map (fun _ => ()) =
      (firstError (u.imports.map fun d =>
        t.resolve d.name d.signature.params.length)).map fun _ => () := by
  rw [imports, ← implementations_outcome (u := u) 0, link,
    firstClash?_eq_none (by simpa using distinct)]
  cases u.implementations t 0 u.declarations <;> rfl

end CompilationUnit

theorem Engine.compile_outcome {v : VerifiedUnit}
    (distinct : (v.unit.declarations.map Declaration.symbol).Nodup) (e : Engine) (self : Nat) :
    (e.compile self v).2.map (fun _ => ()) =
      (firstError (v.unit.imports.map fun d =>
        e.symbols.resolve d.name d.signature.params.length)).map fun _ => () := by
  rw [compile, ← CompilationUnit.link_outcome distinct]
  cases v.unit.link e.symbols <;> rfl

theorem Graph.sound_of_lower {g : Graph} {root : Nat} {folded : Bool} {t : SymbolTable} {id : Nat}
    {params : List Variable} {strategy : Strategy} {u : CompilationUnit}
    (lowered : (g.lower root folded t id params strategy).result = .ok u) :
    u.faults = [] ∧ (u.declarations.map Declaration.symbol).Nodup ∧ u.arity = params.length := by
  obtain ⟨used, s, -, -, walked, rfl⟩ := Graph.lower_cases lowered
  have emitted := Lowering.emits_of_walk walked
  exact ⟨Lowering.faults_finish emitted id used,
    Lowering.nodup_symbols emitted.tables emitted.named id _ used,
    (s.fields_finish id params.length _ used).2.1⟩

/-- A lowered unit passes verification as it is. Compiling it succeeds when all
its imports are found with the declared number of parameters; otherwise the
first one that is not found is the error. -/
theorem Graph.lowered_compiles_unless_unresolved {g : Graph} {root : Nat} {folded : Bool}
    {t : SymbolTable} {id : Nat} {params : List Variable} {strategy : Strategy}
    {u : CompilationUnit} (lowered : (g.lower root folded t id params strategy).result = .ok u) :
    ∃ v, u.verify = .ok v ∧ v.unit = u ∧ ∀ (e : Engine) (self : Nat),
      ((∃ x, (e.compile self v).2 = .ok x) ↔
        ∀ d ∈ u.imports, ∃ f, e.symbols.resolve d.name d.signature.params.length = .ok f) ∧
      ∀ err, (e.compile self v).2 = .error err ↔
        ∃ before d after, u.imports = before ++ d :: after ∧
          (∀ d' ∈ before, ∃ f, e.symbols.resolve d'.name d'.signature.params.length = .ok f) ∧
          e.symbols.Lacks d.name d.signature.params.length err ∧
          err.message = "unresolved symbol: " ++
            if (e.symbols.known? d.name).isSome then
              d.name ++ "/" ++ toString d.signature.params.length
            else d.name := by
  obtain ⟨sound, distinct, -⟩ := Graph.sound_of_lower lowered
  refine ⟨⟨u, sound⟩, CompilationUnit.verify_of_faults sound, rfl, fun e self => ?_⟩
  have outcome := Engine.compile_outcome (v := ⟨u, sound⟩) distinct e self
  refine ⟨(ok_iff_of_outcome outcome).trans exists_firstError_map_iff, fun err => ?_⟩
  rw [error_iff_of_outcome outcome, firstError_map_eq_error_iff]
  constructor
  · rintro ⟨before, d, after, split, found, missing⟩
    have lacks := SymbolTable.resolve_eq_error_iff.mp missing
    exact ⟨before, d, after, split, found, lacks, lacks.message⟩
  · rintro ⟨before, d, after, split, found, lacks, -⟩
    exact ⟨before, d, after, split, found, SymbolTable.resolve_eq_error_iff.mpr lacks⟩

def calleeOfCaller : Graph :=
  ⟨#[.var ⟨0, "x"⟩, .var ⟨1, "y"⟩, .call callerName [0, 1], .call calleeName [2]], by decide⟩

def calleeEngine (arity : Nat) : Engine :=
  ⟨⟨.standard, [⟨calleeName, 1, Catalogue.triple⟩, ⟨callerName, arity, Catalogue.avg⟩], false⟩,
    [], 0⟩

/-- It compiles where both names are found, and fails at the second import where
that one has another arity. -/
theorem calleeOfCaller_compiles_unless_unresolved :
    ∃ u v, (calleeOfCaller.lower 3 false (.builtinsOnly .standard) 7 [⟨0, "x"⟩, ⟨1, "y"⟩]
        .buffer).result = .ok u ∧ u.verify = .ok v ∧ v.unit = u ∧
      (∃ x, ((calleeEngine 2).compile 0 v).2 = .ok x) ∧
      ((calleeEngine 1).compile 0 v).2 = .error (.unresolvedSymbol callerName (some 2)) := by
  have lowers : (calleeOfCaller.lower 3 false (.builtinsOnly .standard) 7 [⟨0, "x"⟩, ⟨1, "y"⟩]
      .buffer).result.map (·.imports) =
        .ok [⟨calleeName, .imported, .f64 1⟩, ⟨callerName, .imported, .f64 2⟩] := by decide +kernel
  cases lowered : (calleeOfCaller.lower 3 false (.builtinsOnly .standard) 7 [⟨0, "x"⟩, ⟨1, "y"⟩]
      .buffer).result with
  | error e =>
    rw [lowered] at lowers
    cases lowers
  | ok u =>
    rw [lowered] at lowers
    have imports : u.imports =
        [⟨calleeName, .imported, .f64 1⟩] ++ [⟨callerName, .imported, .f64 2⟩] :=
      Except.ok.inj lowers
    obtain ⟨v, verified, same, compiles⟩ := Graph.lowered_compiles_unless_unresolved lowered
    have outer (arity : Nat) : ∃ f, (calleeEngine arity).symbols.resolve calleeName 1 = .ok f :=
      exists_of_isOk rfl
    have inner : ∃ f, (calleeEngine 2).symbols.resolve callerName 2 = .ok f := exists_of_isOk rfl
    have known : (calleeEngine 1).symbols.known? callerName =
        some ⟨callerName, 1, Catalogue.avg⟩ := rfl
    refine ⟨u, v, rfl, verified, same, (compiles _ 0).1.mpr ?_, ((compiles _ 0).2 _).mpr ?_⟩
    · rw [imports]
      simpa [Signature.f64] using ⟨outer 2, inner⟩
    · refine ⟨_, _, [], imports, ?_, ?_⟩
      · simpa [Signature.f64] using outer 1
      · have lacks : (calleeEngine 1).symbols.Lacks callerName 2
            (.unresolvedSymbol callerName (some 2)) := .otherArity known (by decide)
        exact ⟨lacks, lacks.message⟩

end ExprCompiler
