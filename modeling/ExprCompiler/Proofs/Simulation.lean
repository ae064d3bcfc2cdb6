import ExprCompiler.Engine.Machine
import ExprCompiler.Proofs.Acceptance
import ExprCompiler.Proofs.Evaluation
import Mathlib.Data.List.Nodup

/-! Emitted code computes what evaluation computes. Lowering, evaluation and the
machine are followed along the same walk: after every visit the instructions
emitted so far run to values that hold, for each node left, what evaluation
found for it, and make the calls that evaluation made. -/
namespace ExprCompiler

namespace Machine

variable {enter : Nat → List Word → Except MachineFault (Word × List Call)} {slots : List Double}
  {references : List FunctionRef}

theorem steps_concat {first values : List Word} {instrs : List Instr} {made more : List Call}
    {instr : Instr} {w : Word}
    (before : steps enter slots references first instrs = .ok (values, made))
    (last : step enter slots references values instr = .ok (w, more)) :
    steps enter slots references first (instrs ++ [instr]) =
      .ok (values ++ [w], made ++ more) := by
  induction instrs generalizing first made with
  | nil =>
    cases before
    simp [steps, last, bind, Except.bind, pure, Except.pure]
  | cons head tail ih =>
    rw [steps] at before
    cases headRun : step enter slots references first head with
    | error e =>
      rw [headRun] at before
      cases before
    | ok result =>
      rw [headRun] at before
      cases tailRun : steps enter slots references (first ++ [result.1]) tail with
      | error e => simp [tailRun, bind, Except.bind] at before
      | ok rest =>
        simp only [tailRun, bind, Except.bind, pure, Except.pure, Except.ok.injEq,
          Prod.mk.injEq] at before
        obtain ⟨rfl, rfl⟩ := before
        have extended := ih tailRun
        simp [steps, headRun, extended, bind, Except.bind, pure, Except.pure]

theorem read_of_getElem? {values : List Word} {v : Nat} {w : Word} (h : values[v]? = some w) :
    read values v = .ok w := by
  rw [read, h]

theorem readAll_map {values : List Word} {value : Nat → Nat} {result : Nat → Double}
    {js : List Nat} (h : ∀ j ∈ js, values[value j]? = some (.double (result j))) :
    readAll values (js.map value) = .ok ((js.map result).map .double) := by
  induction js with
  | nil => rfl
  | cons j js ih =>
    simp only [List.map_cons, readAll]
    rw [read_of_getElem? (h j (by simp)), ih fun k hk => h k (by simp [hk])]
    rfl

end Machine

theorem Bindings.value_ofArgs {params : List Variable} {args : List Double}
    (distinct : (params.map (·.id)).Nodup) (counted : args.length = params.length) {k : Nat}
    {v w : Variable} {x : Double} (param : params[k]? = some v) (arg : args[k]? = some x)
    (same : v.id = w.id) : (Bindings.ofArgs params args).value w = .ok x := by
  have bound : (w.id, x) ∈ (Bindings.ofArgs params args).reverse := by
    rw [List.mem_reverse]
    apply List.mem_of_getElem? (i := k)
    simp [Bindings.ofArgs, List.getElem?_zip_eq_some, param, arg, same]
  have keys : ((Bindings.ofArgs params args).reverse.map (·.1)).Nodup := by
    rw [List.map_reverse, List.nodup_reverse, Bindings.ofArgs,
      List.map_fst_zip (by simp [counted])]
    exact distinct
  obtain ⟨later, earlier, split⟩ := List.append_of_mem bound
  have found : (Bindings.ofArgs params args).reverse.lookup w.id = some x := by
    rw [List.lookup_eq_some_iff]
    refine ⟨later, earlier, split, fun p hp => ?_⟩
    rw [split, List.map_append, List.map_cons, List.nodup_append] at keys
    have apart := keys.2.2 p.1 (List.mem_map.mpr ⟨p, hp, rfl⟩) w.id (by simp)
    simpa using Ne.symm apart
  rw [Bindings.value, Bindings.value?, found]

namespace Lowering

variable {g : Graph} {t : SymbolTable} {params : List Variable} {s s' : Lowering}

structure WellNamed (imports : List (String × Nat)) : Prop where
  distinct : (imports.map (·.1)).Nodup
  supported : ∀ name n, (name, n) ∈ imports → 1 ≤ n ∧ n ≤ 2

theorem WellNamed.declare (named : WellNamed s.imports) {name : String} {n : Nat}
    (h : s.declare t name n = .ok s') : WellNamed s'.imports ∧ (name, n) ∈ s'.imports := by
  obtain ⟨one, two, -, -, ⟨known, same⟩ | ⟨new, grown⟩⟩ := declare_cases h
  · exact ⟨⟨same ▸ named.distinct, same ▸ named.supported⟩, same ▸ known⟩
  · refine ⟨⟨?_, ?_⟩, by simp [grown]⟩
    · rw [grown, List.map_append, List.nodup_append]
      refine ⟨named.distinct, by simp, ?_⟩
      intro a ha b hb same
      rw [same, List.mem_singleton.mp hb] at ha
      exact new ha
    · intro name' n' imported
      rw [grown, List.mem_append, List.mem_singleton] at imported
      cases imported with
      | inl before => exact named.supported name' n' before
      | inr here =>
        cases here
        exact ⟨one, two⟩

theorem WellNamed.getElem?_reference (named : WellNamed s.imports) {arity : Nat}
    (tables : s.Agrees arity) {name : String} {n : Nat} (imported : (name, n) ∈ s.imports)
    {imports : List (String × Nat)} (grown : s.imports <+: imports) :
    imports[s.reference name]? = some (name, n) := by
  obtain ⟨k, hk, here⟩ := List.getElem_of_mem imported
  have position : s.reference name = k := by
    have there := named.distinct.idxOf_getElem k (by simpa using hk)
    rw [List.getElem_map, here] at there
    rw [tables.reference_eq (List.mem_map_of_mem imported), there]
  rw [position, ← here]
  exact (List.prefix_iff_getElem?.mp grown) k hk

end Lowering

/-- The function behind an import is the one that evaluation calls. -/
def Linked (t : SymbolTable) (imports : List (String × Nat)) (references : List FunctionRef)
    (enter : Nat → List Word → Except MachineFault (Word × List Call)) : Prop :=
  ∀ (k : Nat) (name : String) (n : Nat), imports[k]? = some (name, n) → 1 ≤ n → n ≤ 2 →
    ∃ f index signature, t.resolveCall name n = .ok f ∧
      references[k]? = some (FunctionRef.mk (.declaration 0 index) signature) ∧
      ∀ xs : List Double, xs.length = n →
        enter index (xs.map Word.double) = .ok (.double (f.native.apply xs), [⟨name, xs⟩])

/-- After some visits: what was emitted runs to values in which each node left
stands for what evaluation found, by the calls that evaluation made. -/
structure Simulates (g : Graph)
    (enter : Nat → List Word → Except MachineFault (Word × List Call)) (slots : List Double)
    (references : List FunctionRef) (args : List Double) (past : List Visit) (s : Lowering)
    (ev : Evaluation) (values : List Word) : Prop where
  tables : s.Agrees args.length
  named : Lowering.WellNamed s.imports
  entered : ∀ i name js, .enter i ∈ past → g.node i = .call name js →
    (name, js.length) ∈ s.imports
  code : Machine.steps enter slots references (args.map Word.double) s.instrs =
    .ok (values, ev.calls)
  size : values.length = args.length + s.instrs.length
  passed : ∀ (k : Nat) (x : Double), args[k]? = some x → values[k]? = some (Word.double x)
  left : ∀ j, .leave j ∈ past → values[s.value j]? = some (Word.double (ev.value j))

namespace Simulates

variable {g : Graph} {enter : Nat → List Word → Except MachineFault (Word × List Call)}
  {slots : List Double} {references : List FunctionRef} {args : List Double} {past : List Visit}
  {s s' : Lowering} {ev : Evaluation} {values : List Word}
  {t t' : SymbolTable} {params : List Variable} {b : Bindings} {imports : List (String × Nat)}
  {i : Nat}

theorem start : Simulates g enter slots references args [] (.start args.length) .start
    (args.map Word.double) where
  tables := Lowering.agrees_start args.length
  named := ⟨by simp [Lowering.start, Lowering.imports], by simp [Lowering.start, Lowering.imports]⟩
  entered := by simp
  code := rfl
  size := by simp [Lowering.start]
  passed := by
    intro k x arg
    rw [List.getElem?_map, arg]
    rfl
  left := by simp

theorem enter_step (sim : Simulates g enter slots references args past s ev values)
    (taken : Lowering.step g t params s (.enter i) = .ok s') (grown : s'.imports <+: imports)
    (linked : Linked t' imports references enter) :
    Evaluation.step g t' b ev (.enter i) = .ok ev ∧
      Simulates g enter slots references args (past ++ [.enter i]) s' ev values := by
  obtain ⟨name, js, kind, declared⟩ | ⟨noCall, rfl⟩ := Lowering.step_enter_cases taken
  · obtain ⟨named, imported⟩ := sim.named.declare declared
    obtain ⟨one, two, sameInstrs, sameValue, grows⟩ := Lowering.declare_cases declared
    constructor
    · obtain ⟨f, -, -, resolved, -⟩ :=
        linked _ name _ (named.getElem?_reference (sim.tables.step taken) imported grown) one two
      rw [Evaluation.step_enter, kind, Node.precheck, resolved]
      rfl
    · refine ⟨sim.tables.step taken, named, ?_, ?_, ?_, sim.passed, ?_⟩
      · intro j name' js' entered kind'
        simp only [List.mem_append, List.mem_singleton, Visit.enter.injEq] at entered
        cases entered with
        | inl before =>
          exact (Lowering.imports_prefix_of_step taken).subset
            (sim.entered j name' js' before kind')
        | inr here =>
          rw [here, kind] at kind'
          cases kind'
          exact imported
      · rw [sameInstrs]
        exact sim.code
      · rw [sameInstrs]
        exact sim.size
      · intro j left
        rw [sameValue]
        exact sim.left j (by simpa using left)
  · constructor
    · rw [Evaluation.step_enter]
      cases kind : g.node i with
      | call name js => exact absurd kind (noCall name js)
      | var _ | const _ | neg _ | binary _ _ _ => rfl
    · refine ⟨sim.tables, sim.named, ?_, sim.code, sim.size, sim.passed, ?_⟩
      · intro j name js entered kind
        simp only [List.mem_append, List.mem_singleton, Visit.enter.injEq] at entered
        cases entered with
        | inl before => exact sim.entered j name js before kind
        | inr here => exact absurd (here ▸ kind) (noCall name js)
      · intro j left
        exact sim.left j (by simpa using left)

private theorem getElem?_append_of_some {k : Nat} {w : Word} (h : values[k]? = some w)
    (more : List Word) : (values ++ more)[k]? = some w := by
  rw [List.getElem?_append_left (List.getElem?_eq_some_iff.mp h).1, h]

theorem emit (sim : Simulates g enter slots references args past s ev values) {instr : Instr}
    {x : Double} {made : List Call}
    (computed : Machine.step enter slots references values instr = .ok (.double x, made)) :
    Simulates g enter slots references args (past ++ [.leave i]) (s.emit args.length i instr)
      ⟨ev.value.set i x, ev.calls ++ made⟩ (values ++ [.double x]) where
  tables := ⟨sim.tables.declared, sim.tables.referred, sim.tables.named⟩
  named := sim.named
  entered := fun j name js entered kind => sim.entered j name js (by simpa using entered) kind
  code := Machine.steps_concat sim.code computed
  size := by
    simp only [Lowering.emit, List.length_append, List.length_singleton, sim.size]
    omega
  passed := fun k y arg => getElem?_append_of_some (sim.passed k y arg) _
  left := by
    intro j left
    by_cases same : j = i
    · rw [same]
      simp only [Lowering.emit, Assignment.set_self, ← sim.size]
      simp
    · have before : .leave j ∈ past := by simpa [same] using left
      simp only [Lowering.emit, Assignment.set_of_ne _ _ same]
      exact getElem?_append_of_some (sim.left j before) _

theorem bind (sim : Simulates g enter slots references args past s ev values) {k : Nat}
    {x : Double} (arg : args[k]? = some x) :
    Simulates g enter slots references args (past ++ [.leave i])
      { s with value := s.value.set i k } (ev.record i x) values where
  tables := ⟨sim.tables.declared, sim.tables.referred, sim.tables.named⟩
  named := sim.named
  entered := fun j name js entered kind => sim.entered j name js (by simpa using entered) kind
  code := sim.code
  size := sim.size
  passed := sim.passed
  left := by
    intro j left
    by_cases same : j = i
    · rw [same]
      simp only [Evaluation.record, Assignment.set_self]
      exact sim.passed k x arg
    · have before : .leave j ∈ past := by simpa [same] using left
      simp only [Evaluation.record, Assignment.set_of_ne _ _ same]
      exact sim.left j before

theorem leave_instr (sim : Simulates g enter slots references args past s ev values)
    (operands : ∀ j ∈ (g.node i).operands, .leave j ∈ past) (entered : .enter i ∈ past)
    (grown : s.imports <+: imports) (linked : Linked t' imports references enter) {instr : Instr}
    (chosen : s.instr? (g.node i) = some instr) :
    ∃ x made, Machine.step enter slots references values instr = .ok (.double x, made) ∧
      Evaluation.step g t' b ev (.leave i) = .ok ⟨ev.value.set i x, ev.calls ++ made⟩ := by
  have read : ∀ j ∈ (g.node i).operands,
      Machine.read values (s.value j) = .ok (.double (ev.value j)) :=
    fun j hj => Machine.read_of_getElem? (sim.left j (operands j hj))
  cases kind : g.node i with
  | var v =>
    rw [kind] at chosen
    cases chosen
  | const c =>
    rw [kind] at chosen
    cases chosen
    exact ⟨c, [], rfl, by simp [Evaluation.step, kind, Evaluation.record]⟩
  | neg a =>
    rw [kind] at chosen
    cases chosen
    refine ⟨-(ev.value a), [], ?_, by simp [Evaluation.step, kind, Evaluation.record]⟩
    rw [Machine.step, read a (by simp [kind, Node.operands])]
    rfl
  | binary op a c =>
    rw [kind] at chosen
    cases chosen
    refine ⟨op.apply (ev.value a) (ev.value c), [], ?_,
      by simp [Evaluation.step, kind, Evaluation.record]⟩
    rw [Machine.step, read a (by simp [kind, Node.operands]),
      read c (by simp [kind, Node.operands])]
    rfl
  | call name js =>
    rw [kind] at chosen
    cases chosen
    have imported := sim.entered i name js entered kind
    obtain ⟨one, two⟩ := sim.named.supported name js.length imported
    obtain ⟨f, index, signature, resolved, referred, called⟩ :=
      linked _ name _ (sim.named.getElem?_reference sim.tables imported grown) one two
    have ready : Machine.readAll values (js.map s.value) = .ok ((js.map ev.value).map .double) :=
      Machine.readAll_map fun j hj =>
        sim.left j (operands j (by simpa [kind, Node.operands] using hj))
    refine ⟨f.native.apply (js.map ev.value), [⟨name, js.map ev.value⟩], ?_, ?_⟩
    · rw [Machine.step, referred]
      simp only [ready]
      exact called _ (by simp)
    · simp [Evaluation.step, kind, resolved, Except.map, Evaluation.record]

theorem leave_step (sim : Simulates g enter slots references args past s ev values)
    (counted : args.length = params.length) (distinct : (params.map (·.id)).Nodup)
    (operands : ∀ j ∈ (g.node i).operands, .leave j ∈ past) (entered : .enter i ∈ past)
    (taken : Lowering.step g t params s (.leave i) = .ok s') (grown : s'.imports <+: imports)
    (linked : Linked t' imports references enter) :
    ∃ ev' values', Evaluation.step g t' (.ofArgs params args) ev (.leave i) = .ok ev' ∧
      Simulates g enter slots references args (past ++ [.leave i]) s' ev' values' := by
  obtain ⟨v, k, kind, found, rfl⟩ | ⟨instr, chosen, rfl⟩ := Lowering.step_leave_cases taken
  · obtain ⟨hk, same, -⟩ := List.findIdx?_eq_some_iff_getElem.mp found
    have param : params[k]? = some params[k] := List.getElem?_eq_getElem hk
    have arg : args[k]? = some (args[k]) := List.getElem?_eq_getElem (counted ▸ hk)
    have value := Bindings.value_ofArgs distinct counted param arg (by simpa using same)
    refine ⟨ev.record i args[k], values, ?_, sim.bind arg⟩
    simp [Evaluation.step, kind, value, Except.map]
  · obtain ⟨x, made, computed, stepped⟩ :=
      sim.leave_instr (b := .ofArgs params args) operands entered
        ((Lowering.imports_prefix_of_step taken).trans grown) linked chosen
    rw [← counted]
    exact ⟨_, _, stepped, sim.emit computed⟩

theorem visits {vs : List Visit} {final : Lowering}
    (sim : Simulates g enter slots references args past s ev values)
    (counted : args.length = params.length) (distinct : (params.map (·.id)).Nodup)
    (ordered : g.Ordered past vs)
    (run : foldUntil (Lowering.step g t params) s vs = (final, none))
    (linked : Linked t' final.imports references enter) :
    ∃ ev' values', foldUntil (Evaluation.step g t' (.ofArgs params args)) ev vs = (ev', none) ∧
      Simulates g enter slots references args (past ++ vs) final ev' values' := by
  induction vs generalizing past s ev values with
  | nil =>
    cases run
    exact ⟨ev, values, rfl, by simpa using sim⟩
  | cons v vs ih =>
    obtain ⟨s', taken, rest⟩ := Lowering.foldUntil_cons_none run
    -- Imports are never taken back: what is linked at the end is linked for this visit.
    have grown := Lowering.imports_prefix_of_foldUntil rest
    have next : ∃ ev' values', Evaluation.step g t' (.ofArgs params args) ev v = .ok ev' ∧
        Simulates g enter slots references args (past ++ [v]) s' ev' values' := by
      cases v with
      | enter i => exact ⟨ev, values, sim.enter_step taken grown linked⟩
      | again i =>
        have tables := sim.tables.step taken
        cases taken
        refine ⟨ev, values, rfl, ⟨tables, sim.named, ?_, sim.code, sim.size, sim.passed, ?_⟩⟩
        · exact fun j name js entered kind => sim.entered j name js (by simpa using entered) kind
        · exact fun j left => sim.left j (by simpa using left)
      | leave i =>
        obtain ⟨entered, -, operands⟩ := ordered.1
        exact sim.leave_step counted distinct operands entered taken grown linked
    obtain ⟨ev', values', stepped, sim'⟩ := next
    obtain ⟨ev'', values'', ran, sim''⟩ := ih sim' ordered.2 rest
    refine ⟨ev'', values'', ?_, by simpa using sim''⟩
    rw [foldUntil_cons_ok stepped, ran]

end Simulates

/-- The code of a lowered graph returns what evaluation returns, by the same
calls. -/
theorem Graph.evaluate_eq_code {g : Graph} {root : Nat} {t t' : SymbolTable}
    {params : List Variable} {args : List Double} {references : List FunctionRef}
    {enter : Nat → List Word → Except MachineFault (Word × List Call)} {s : Lowering}
    (slots : List Double) (counted : args.length = params.length)
    (distinct : (params.map (·.id)).Nodup)
    (run : foldUntil (Lowering.step g t params) (.start params.length) (g.visits root) = (s, none))
    (linked : Linked t' s.imports references enter) :
    ∃ values calls x,
      Machine.steps enter slots references (args.map .double) s.instrs = .ok (values, calls) ∧
      Machine.read values (s.value root) = .ok (.double x) ∧
      g.evaluate root t' params args = (calls, .ok x) := by
  have first : Simulates g enter slots references args [] (.start params.length) .start
      (args.map .double) := counted ▸ .start
  obtain ⟨ev, values, ran, sim⟩ := first.visits counted distinct (g.ordered_visits root) run linked
  refine ⟨values, ev.calls, ev.value root, sim.code, ?_, ?_⟩
  · exact Machine.read_of_getElem? (sim.left root (by simpa using g.leave_root_mem root))
  · rw [Graph.evaluate, if_neg (by simp [counted]), ran]

end ExprCompiler
