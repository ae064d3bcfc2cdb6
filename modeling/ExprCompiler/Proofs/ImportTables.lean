import ExprCompiler.Code.Lowering
import Mathlib.Data.List.Nodup

/-! What a step of lowering does, and the tables that it keeps of imports. A name is
declared in the unit, referred to by the callee and looked up for its reference; the
three tables are written apart, each with numbers of its own. They agree: the import
after `k` others is declaration `k + 1` and reference `k`, and its name leads there. -/
namespace ExprCompiler.Lowering

variable {g : Graph} {t : SymbolTable} {params : List Variable} {s s' : Lowering} {name : String}
  {n arity : Nat}

def imports (s : Lowering) : List (String × Nat) := s.imported.map fun p => (p.1, p.2.arity)

theorem lookup_imports (s : Lowering) (name : String) :
    s.imports.lookup name = (s.imported.lookup name).map (·.arity) := by
  unfold imports
  induction s.imported with
  | nil => rfl
  | cons p ps ih =>
    rw [List.map_cons, List.lookup_cons, List.lookup_cons, ih]
    cases name == p.1 <;> rfl

@[simp] theorem imports_emit (s : Lowering) (arity i : Nat) (instr : Instr) :
    (s.emit arity i instr).imports = s.imports := rfl

section Steps

theorem addImport_of_declare (declared : s.declare t name n = .ok s') :
    s.addImport name n = .ok s' ∧ 1 ≤ n ∧ n ≤ 2 := by
  unfold declare at declared
  split at declared
  · cases declared
  · next supported =>
    refine ⟨?_, by omega, by omega⟩
    split at declared
    · split at declared
      · exact declared
      · cases declared
    · exact declared

theorem declareImport_fst (s : Lowering) (name : String) (n : Nat) :
    ∃ ds, (s.declareImport name n).1 = { s with declarations := ds } := by
  unfold declareImport
  split
  · exact ⟨s.declarations, rfl⟩
  · exact ⟨_, rfl⟩

theorem imports_newImport (s : Lowering) (name : String) (n : Nat) :
    (s.newImport name n).imports = s.imports ++ [(name, n)] := by
  obtain ⟨ds, same⟩ := s.declareImport_fst name n
  simp [newImport, imports, same]

theorem code_newImport (s : Lowering) (name : String) (n : Nat) :
    (s.newImport name n).instrs = s.instrs ∧ (s.newImport name n).value = s.value := by
  obtain ⟨ds, same⟩ := s.declareImport_fst name n
  simp [newImport, same]

theorem addImport_cases (added : s.addImport name n = .ok s') :
    (name, n) ∈ s.imports ∧ s' = s ∨ name ∉ s.imports.map (·.1) ∧ s' = s.newImport name n := by
  have known := s.lookup_imports name
  unfold addImport at added
  split at added
  · next import_ found =>
    split at added
    · next same =>
      cases added
      rw [found, Option.map_some, same] at known
      obtain ⟨before, after, split, -⟩ := List.lookup_eq_some_iff.mp known
      exact .inl ⟨by simp [split], rfl⟩
    · cases added
  · next missing =>
    cases added
    rw [missing, Option.map_none] at known
    refine .inr ⟨fun named => ?_, rfl⟩
    obtain ⟨p, there, rfl⟩ := List.mem_map.mp named
    simpa using List.lookup_eq_none_iff.mp known p there

theorem declare_cases (declared : s.declare t name n = .ok s') :
    1 ≤ n ∧ n ≤ 2 ∧ s'.instrs = s.instrs ∧ s'.value = s.value ∧
      ((name, n) ∈ s.imports ∧ s'.imports = s.imports ∨
        name ∉ s.imports.map (·.1) ∧ s'.imports = s.imports ++ [(name, n)]) := by
  obtain ⟨added, one, two⟩ := addImport_of_declare declared
  obtain ⟨known, rfl⟩ | ⟨new, rfl⟩ := addImport_cases added
  · exact ⟨one, two, rfl, rfl, .inl ⟨known, rfl⟩⟩
  · obtain ⟨instrs, value⟩ := s.code_newImport name n
    exact ⟨one, two, instrs, value, .inr ⟨new, s.imports_newImport name n⟩⟩

theorem step_enter_cases {i : Nat} (h : step g t params s (.enter i) = .ok s') :
    (∃ name args, g.node i = .call name args ∧ s.declare t name args.length = .ok s') ∨
      (∀ name args, g.node i ≠ .call name args) ∧ s' = s := by
  cases kind : g.node i with
  | call name args => exact .inl ⟨name, args, rfl, by simpa [step, kind] using h⟩
  | var _ | const _ | neg _ | binary _ _ _ =>
    have same : s = s' := by simpa [step, kind] using h
    exact .inr ⟨by simp, same.symm⟩

def instr? (s : Lowering) : Node → Option Instr
  | .var _ => none
  | .const c => some (.const c)
  | .neg a => some (.neg (s.value a))
  | .binary op a b => some (.binary op (s.value a) (s.value b))
  | .call name args => some (.call (s.reference name) (args.map s.value))

theorem step_leave_cases {i : Nat} (h : step g t params s (.leave i) = .ok s') :
    (∃ v k, g.node i = .var v ∧ params.findIdx? (·.id = v.id) = some k ∧
      s' = { s with value := s.value.set i k }) ∨
    ∃ instr, s.instr? (g.node i) = some instr ∧ s' = s.emit params.length i instr := by
  cases kind : g.node i with
  | var v =>
    cases found : params.findIdx? (·.id = v.id) with
    | none => simp [step, kind, found] at h
    | some k =>
      have same : { s with value := s.value.set i k } = s' := by simpa [step, kind, found] using h
      exact .inl ⟨v, k, rfl, found, same.symm⟩
  | const _ | neg _ | binary _ _ _ | call _ _ =>
    refine .inr ⟨_, rfl, Eq.symm ?_⟩
    simpa [step, kind] using h

theorem foldUntil_cons_none {v : Visit} {vs : List Visit} {final : Lowering}
    (h : foldUntil (step g t params) s (v :: vs) = (final, none)) :
    ∃ s', step g t params s v = .ok s' ∧
      foldUntil (step g t params) s' vs = (final, none) := by
  cases taken : step g t params s v with
  | error e =>
    rw [foldUntil_cons_error taken] at h
    cases h
  | ok s' => exact ⟨s', rfl, (foldUntil_cons_ok taken vs).symm.trans h⟩

theorem imports_prefix_of_step {v : Visit} (h : step g t params s v = .ok s') :
    s.imports <+: s'.imports := by
  cases v with
  | again i =>
    cases h
    exact List.prefix_rfl
  | enter i =>
    obtain ⟨name, args, -, declared⟩ | ⟨-, rfl⟩ := step_enter_cases h
    · obtain ⟨-, -, -, -, ⟨-, same⟩ | ⟨-, grown⟩⟩ := declare_cases declared
      · exact same ▸ List.prefix_rfl
      · exact grown ▸ List.prefix_append _ _
    · exact List.prefix_rfl
  | leave i =>
    obtain ⟨v, k, -, -, rfl⟩ | ⟨instr, -, rfl⟩ := step_leave_cases h
    · exact List.prefix_rfl
    · exact List.prefix_rfl

theorem imports_prefix_of_foldUntil {vs : List Visit} {final : Lowering}
    (h : foldUntil (step g t params) s vs = (final, none)) : s.imports <+: final.imports := by
  induction vs generalizing s with
  | nil =>
    cases h
    exact List.prefix_rfl
  | cons v vs ih =>
    obtain ⟨s', taken, rest⟩ := foldUntil_cons_none h
    exact (imports_prefix_of_step taken).trans (ih rest)

end Steps

def externs (imports : List (String × Nat)) : List FunctionRef :=
  imports.zipIdx.map fun p => ⟨.declaration 0 (p.2 + 1), .f64 p.1.2⟩

theorem getElem?_externs (imports : List (String × Nat)) (k : Nat) :
    (externs imports)[k]? = imports[k]?.map fun p => ⟨.declaration 0 (k + 1), .f64 p.2⟩ := by
  simp [externs, Function.comp_def]

theorem prefix_externs {imports imports' : List (String × Nat)} (grown : imports <+: imports') :
    externs imports <+: externs imports' := by
  obtain ⟨more, rfl⟩ := grown
  simp [externs, List.zipIdx_append]

def numbered (k : Nat) (imports : List (String × Nat)) : List (String × Import) :=
  (imports.zipIdx k).map fun p => (p.1.1, ⟨p.2, p.1.2⟩)

theorem numbered_concat (imports : List (String × Nat)) (name : String) (n : Nat) :
    numbered 0 (imports ++ [(name, n)]) =
      numbered 0 imports ++ [(name, ⟨imports.length, n⟩)] := by
  simp [numbered, List.zipIdx_append]

theorem lookup_numbered (k : Nat) {imports : List (String × Nat)} {name : String}
    (named : name ∈ imports.map (·.1)) :
    ((numbered k imports).lookup name).map (·.reference) =
      some (k + (imports.map (·.1)).idxOf name) := by
  induction imports generalizing k with
  | nil => cases named
  | cons p ps ih =>
    have rest : numbered k (p :: ps) = (p.1, ⟨k, p.2⟩) :: numbered (k + 1) ps := rfl
    rw [rest, List.lookup_cons, List.map_cons, List.idxOf_cons]
    by_cases same : p.1 = name
    · simp [same]
    · have later : name ∈ ps.map (·.1) := by simpa [Ne.symm same] using named
      simp only [beq_eq_false_iff_ne.mpr same, beq_eq_false_iff_ne.mpr (Ne.symm same), cond_false,
        ih (k + 1) later, Option.some.injEq]
      omega

/-- The import after `k` others is declaration `k + 1` and reference `k`, and its name
leads to that reference. -/
structure Agrees (arity : Nat) (s : Lowering) : Prop where
  declared : s.declarations =
    ⟨calleeName, .own, .f64 arity⟩ :: s.imports.map fun p => ⟨p.1, .imported, .f64 p.2⟩
  referred : s.references = externs s.imports
  named : s.imported = numbered 0 s.imports

theorem agrees_start (arity : Nat) : (start arity).Agrees arity := ⟨rfl, rfl, rfl⟩

namespace Agrees

theorem length_declarations (tables : s.Agrees arity) :
    s.declarations.length = s.imports.length + 1 := by
  rw [tables.declared, List.length_cons, List.length_map]

/-- A name that leads nowhere is not declared as an import. The callee may have it. -/
theorem declareImport_eq (tables : s.Agrees arity) (new : name ∉ s.imports.map (·.1)) (n : Nat) :
    s.declareImport name n =
      ({ s with declarations := s.declarations ++ [⟨name, .imported, .f64 n⟩] },
       s.imports.length + 1) := by
  have absent : (s.declarations.findIdx? fun d => d.linkage = .imported && d.name = name) =
      none := by
    rw [tables.declared, List.findIdx?_eq_none_iff]
    intro d there
    rcases List.mem_cons.mp there with rfl | imported
    · rfl
    · obtain ⟨p, hp, rfl⟩ := List.mem_map.mp imported
      have apart : p.1 ≠ name := fun same => new (same ▸ List.mem_map_of_mem hp)
      simp [apart]
  rw [declareImport, absent, tables.length_declarations]

theorem newImport (tables : s.Agrees arity) (new : name ∉ s.imports.map (·.1)) (n : Nat) :
    (s.newImport name n).Agrees arity := by
  have count : s.references.length = s.imports.length := by
    rw [tables.referred, externs, List.length_map, List.length_zipIdx]
  constructor
  · rw [imports_newImport, Lowering.newImport, tables.declareImport_eq new]
    simp [tables.declared]
  · rw [imports_newImport, Lowering.newImport, tables.declareImport_eq new]
    simp [tables.referred, externs, List.zipIdx_append]
  · rw [imports_newImport, Lowering.newImport, tables.declareImport_eq new]
    rw [numbered_concat, ← tables.named, ← count]

theorem step (tables : s.Agrees arity) {v : Visit} (taken : step g t params s v = .ok s') :
    s'.Agrees arity := by
  cases v with
  | again i =>
    cases taken
    exact ⟨tables.declared, tables.referred, tables.named⟩
  | enter i =>
    obtain ⟨name, args, -, declared⟩ | ⟨-, rfl⟩ := step_enter_cases taken
    · obtain ⟨-, rfl⟩ | ⟨new, rfl⟩ := addImport_cases (addImport_of_declare declared).1
      · exact tables
      · exact tables.newImport new args.length
    · exact tables
  | leave i =>
    obtain ⟨v, k, -, -, rfl⟩ | ⟨instr, -, rfl⟩ := step_leave_cases taken
    · exact ⟨tables.declared, tables.referred, tables.named⟩
    · exact ⟨tables.declared, tables.referred, tables.named⟩

theorem foldUntil {vs : List Visit} {final : Lowering} (tables : s.Agrees arity)
    (run : foldUntil (Lowering.step g t params) s vs = (final, none)) : final.Agrees arity := by
  induction vs generalizing s with
  | nil =>
    cases run
    exact tables
  | cons v vs ih =>
    obtain ⟨s', taken, rest⟩ := foldUntil_cons_none run
    exact ih (tables.step taken) rest

theorem reference_eq (tables : s.Agrees arity) (named : name ∈ s.imports.map (·.1)) :
    s.reference name = (s.imports.map (·.1)).idxOf name := by
  rw [reference, tables.named, lookup_numbered 0 named, Nat.zero_add, Option.getD_some]

theorem reference_congr (tables : s.Agrees arity) (tables' : s'.Agrees arity)
    (same : s.imports = s'.imports) : s.reference = s'.reference := by
  funext name
  rw [reference, reference, tables.named, tables'.named, same]

end Agrees

theorem agrees_of_walk {root : Nat}
    (run : foldUntil (step g t params) (.start params.length) (g.visits root) = (s, none)) :
    s.Agrees params.length :=
  (agrees_start params.length).foldUntil run

end ExprCompiler.Lowering
