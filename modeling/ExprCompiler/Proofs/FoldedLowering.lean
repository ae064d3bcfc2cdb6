import ExprCompiler.Proofs.FoldedImage
import ExprCompiler.Proofs.Pipeline

/-! A folded expression is lowered like the expression itself, but for its
arithmetic: with the same error, or to a unit with the same declarations whose
functions make the same calls. So it is compiled under the same conditions. -/
namespace ExprCompiler

def Body.callTargets (b : Body) : List (Option FunctionRef) :=
  match b.block with
  | some block => (block.instrs.filterMap Instr.reference?).map (b.references[·]?)
  | none => []

def Body.outline (b : Body) : Nat × Signature × List FunctionRef × List (Option FunctionRef) :=
  (b.index, b.signature, b.references, b.callTargets)

/-- Two units that differ in the arithmetic of their bodies only. -/
structure CompilationUnit.SameCalls (u u' : CompilationUnit) : Prop where
  id : u.id = u'.id
  arity : u.arity = u'.arity
  strategy : u.strategy = u'.strategy
  declarations : u.declarations = u'.declarations
  buffer : u.buffer = u'.buffer
  baked : u.baked = u'.baked
  bodies : (u.bodies.map fun p => (p.1, p.2.outline)) = u'.bodies.map fun p => (p.1, p.2.outline)

namespace Lowering

variable {s s' : Lowering} {n : Nat}

theorem outline_callee (tables : s.Agrees n) (tables' : s'.Agrees n)
    (imports : s.imports = s'.imports)
    (calls : s.instrs.filterMap Instr.reference? = s'.instrs.filterMap Instr.reference?)
    (root root' : Nat) : (s.callee n root).outline = (s'.callee n root').outline := by
  have references : (s.callee n root).references = (s'.callee n root').references := by
    rw [references_callee tables, references_callee tables', imports]
  have targets : (s.callee n root).callTargets = (s'.callee n root').callTargets := by
    show (s.instrs.filterMap Instr.reference?).map _ = (s'.instrs.filterMap Instr.reference?).map _
    rw [calls, references]
  rw [Body.outline, Body.outline, references, targets]
  rfl

theorem sameCalls_finish (tables : s.Agrees n) (tables' : s'.Agrees n)
    (imports : s.imports = s'.imports)
    (calls : s.instrs.filterMap Instr.reference? = s'.instrs.filterMap Instr.reference?)
    (id root root' : Nat) (used : Strategy) :
    (s.finish id n root used).SameCalls (s'.finish id n root' used) where
  id := by rw [(s.fields_finish ..).1, (s'.fields_finish ..).1]
  arity := by rw [(s.fields_finish ..).2.1, (s'.fields_finish ..).2.1]
  strategy := by rw [(s.fields_finish ..).2.2, (s'.fields_finish ..).2.2]
  declarations := by rw [declarations_finish tables, declarations_finish tables', imports]
  buffer := by cases used <;> rfl
  baked := by cases used <;> rfl
  bodies := by
    rw [bodies_finish tables, bodies_finish tables', List.map_cons, List.map_cons, imports,
      outline_callee tables tables' imports calls root root']

theorem references_of_walk {g : Graph} {t : SymbolTable} {params : List Variable} {root : Nat}
    (run : foldUntil (step g t params) (.start params.length) (g.visits root) = (s, none)) :
    s.instrs.filterMap Instr.reference? = (g.calledNames root).map s.reference :=
  (emits_of_walk run).calls

end Lowering

namespace Graph

variable (g : Graph) (root : Nat)

theorem calledNames_lowered (folded : Bool) :
    (g.lowered root folded).1.calledNames (g.lowered root folded).2 = g.calledNames root := by
  cases folded with
  | false => rfl
  | true => exact g.calledNames_foldConstants root

theorem vars_foldConstants :
    (g.foldConstants root).1.vars (g.foldConstants root).2 = g.vars root := by
  rw [vars_eq, vars_eq, expr_foldConstants, sites_foldConstants]

end Graph

theorem Graph.sameCalls_of_lower {g : Graph} {root : Nat} {folded folded' : Bool} {t : SymbolTable}
    {id : Nat} {params : List Variable} {strategy : Strategy} {u u' : CompilationUnit}
    (h : (g.lower root folded t id params strategy).result = .ok u)
    (h' : (g.lower root folded' t id params strategy).result = .ok u') : u.SameCalls u' := by
  obtain ⟨used, s, resolved, -, walked, rfl⟩ := lower_cases h
  obtain ⟨used', s', resolved', -, walked', rfl⟩ := lower_cases h'
  rw [resolved] at resolved'
  cases resolved'
  have imports : s.imports = s'.imports := by
    rw [Lowering.imports_of_walk walked, Lowering.imports_of_walk walked', sites_lowered,
      sites_lowered]
  have tables := Lowering.agrees_of_walk walked
  have tables' := Lowering.agrees_of_walk walked'
  have references : s.reference = s'.reference := tables.reference_congr tables' imports
  apply Lowering.sameCalls_finish tables tables' imports
  rw [Lowering.references_of_walk walked, Lowering.references_of_walk walked',
    calledNames_lowered, calledNames_lowered, references]

theorem Engine.compileExpr_outcome {g : Graph} {root : Nat} {folded : Bool} {e : Engine} {id : Nat}
    {params : List Variable} {strategy : Strategy} {u : CompilationUnit}
    (lowered : (g.lower root folded e.symbols id params strategy).result = .ok u) (self : Nat) :
    (e.compileExpr self g root folded id params strategy).2.result.map (·.params) =
      (firstError (u.imports.map fun d =>
        e.symbols.resolve d.name d.signature.params.length)).map fun _ => params := by
  obtain ⟨sound, distinct, arity⟩ := Graph.sound_of_lower lowered
  have outcome := compile_outcome (v := ⟨u, sound⟩) distinct e self
  unfold compileExpr install
  simp only [lowered, CompilationUnit.verify_of_faults sound, bind, Except.bind]
  cases compiled : (e.compile self ⟨u, sound⟩).2 with
  | error err =>
    rw [(error_iff_of_outcome outcome err).mp compiled]
    rfl
  | ok entry =>
    obtain ⟨found, all⟩ := (ok_iff_of_outcome outcome).mp ⟨entry, compiled⟩
    obtain ⟨functions, -, -, made⟩ := compile_cases (Prod.ext rfl compiled)
    have fits : entry.arity = params.length := by rw [made, arity]
    have wrapped : Callable.ofEntry entry params.length = .ok ⟨entry, []⟩ := if_pos fits
    rw [all]
    simp only [wrapped]
    rfl

theorem Engine.compileExpr_of_error {g : Graph} {root : Nat} {folded : Bool} {e : Engine} {id : Nat}
    {params : List Variable} {strategy : Strategy} {err : Error}
    (refused : (g.lower root folded e.symbols id params strategy).result = .error err)
    (self : Nat) :
    (e.compileExpr self g root folded id params strategy).2.result = .error err := by
  unfold compileExpr
  simp only [refused]

theorem Graph.lower_alike (g : Graph) (root : Nat) (folded folded' : Bool) (t : SymbolTable)
    (id : Nat) (params : List Variable) (strategy : Strategy) :
    (∃ e, (g.lower root folded t id params strategy).result = .error e ∧
      (g.lower root folded' t id params strategy).result = .error e) ∨
    ∃ u u', (g.lower root folded t id params strategy).result = .ok u ∧
      (g.lower root folded' t id params strategy).result = .ok u' ∧ u.SameCalls u' := by
  cases result : (g.lower root folded t id params strategy).result with
  | error e =>
    have refused := (lower_error_iff g root folded t id e).mp result
    exact .inl ⟨e, rfl, (lower_error_iff g root folded' t id e).mpr refused⟩
  | ok u =>
    have accepted := (lower_ok_iff g root folded t id).mp ⟨u, result⟩
    obtain ⟨u', result'⟩ := (lower_ok_iff g root folded' t id).mpr accepted
    exact .inr ⟨u, u', rfl, result', sameCalls_of_lower result result'⟩

/-- Folding is seen in the arithmetic only. With and without it lowering fails
with the same error or gives units that make the same calls; the variables are
the same in the same order; and a whole compilation fails with the same error or
gives callables of the same parameters. -/
theorem Graph.folding_seen_in_arithmetic_only (g : Graph) (root : Nat) (t : SymbolTable)
    (id : Nat) (params : List Variable) (strategy : Strategy) :
    (match (g.lower root true t id params strategy).result,
        (g.lower root false t id params strategy).result with
      | .ok u, .ok u' => u.SameCalls u'
      | .error e, .error e' => e = e'
      | _, _ => False) ∧
    (g.foldConstants root).1.vars (g.foldConstants root).2 = g.vars root ∧
    ∀ (e : Engine) (self : Nat),
      (e.compileExpr self g root true id params strategy).2.result.map (·.params) =
        (e.compileExpr self g root false id params strategy).2.result.map (·.params) := by
  refine ⟨?_, g.vars_foldConstants root, fun e self => ?_⟩
  · obtain ⟨e, folded, plain⟩ | ⟨u, u', folded, plain, same⟩ :=
      g.lower_alike root true false t id params strategy
    · rw [folded, plain]
    · rw [folded, plain]
      exact same
  · obtain ⟨err, folded, plain⟩ | ⟨u, u', folded, plain, same⟩ :=
      g.lower_alike root true false e.symbols id params strategy
    · rw [Engine.compileExpr_of_error folded, Engine.compileExpr_of_error plain]
    · rw [Engine.compileExpr_outcome folded, Engine.compileExpr_outcome plain,
        CompilationUnit.imports, same.declarations, CompilationUnit.imports]

end ExprCompiler
