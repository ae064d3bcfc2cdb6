import ExprCompiler.Proofs.NonInterference
import ExprCompiler.Proofs.SymbolHistory
import ExprCompiler.Proofs.VerifiedCode

/-! What fails changes nothing. A compilation that fails has failed before the engine
took the code; a registration is refused before the table is written; and a call is
refused before its arguments are written, or else it never comes back: the code that
it enters passed verification, whatever was done to units and entries. -/
namespace ExprCompiler

def Entry.startName (x : Entry) : String :=
  if x.strategy = .buffer then callerName else calleeName

namespace Callable

structure Admits (c : Callable) (owner : Option Engine) (args : List Double) (index : Nat) :
    Prop where
  counted : args.length = c.arity
  live : c.entry.isLive owner = true
  found : c.entry.functions.lookup c.entry.startName = some index

/-- Why a call is refused, in the order of the checks. All of it is read off the
callable, its engine and the number of arguments. -/
inductive Refuses (c : Callable) (owner : Option Engine) (args : List Double) : Error → Prop
  | count (other : args.length ≠ c.arity) :
      Refuses c owner args (.arityMismatch c.arity args.length)
  | dangling (counted : args.length = c.arity) (dead : c.entry.isLive owner = false) :
      Refuses c owner args .danglingEntry
  | missing (counted : args.length = c.arity) (live : c.entry.isLive owner = true)
      (absent : c.entry.functions.lookup c.entry.startName = none) :
      Refuses c owner args (.symbolNotFound c.entry.startName)
  | noBuffer {index : Nat} (admitted : c.Admits owner args index)
      (strategy : c.entry.strategy = .buffer) (gone : c.entry.buffer = none) :
      Refuses c owner args (.internal .missingBuffer)
  | stale {index : Nat} {buffer : ArgBuffer} (admitted : c.Admits owner args index)
      (strategy : c.entry.strategy = .buffer) (held : c.entry.buffer = some buffer)
      (moved : c.entry.baked ≠ some 0) : Refuses c owner args .staleBufferAddress
  | tooMany {index : Nat} (admitted : c.Admits owner args index)
      (strategy : c.entry.strategy ≠ .buffer) (many : maxPositional < args.length) :
      Refuses c owner args (.internal (.tooManyArguments args.length))

variable {c : Callable} {owner : Option Engine} {args : List Double} {err : Error}

theorem refuses_of_locate (counted : args.length = c.arity)
    (failed : c.entry.locate owner c.entry.startName = .error err) : c.Refuses owner args err := by
  unfold Entry.locate at failed
  split at failed
  · split at failed
    · next same =>
      split at failed
      · cases failed
      · next absent =>
        cases failed
        exact .missing counted (decide_eq_true same) absent
    · next other =>
      cases failed
      exact .dangling counted (decide_eq_false other)
  · cases failed
    exact .dangling counted rfl

theorem admits_of_locate {e : Engine} {index : Nat} (counted : args.length = c.arity)
    (located : c.entry.locate owner c.entry.startName = .ok (e, index)) :
    owner = some e ∧ c.Admits owner args index := by
  unfold Entry.locate at located
  split at located
  · split at located
    · next same =>
      split at located
      · next found =>
        cases located
        exact ⟨rfl, counted, decide_eq_true same, found⟩
      · cases located
    · cases located
  · cases located

/-- A call is refused with nothing written and nothing run, or enters its function. -/
inductive Decides (c : Callable) (owner : Option Engine) (args : List Double) : Return → Prop
  | refuse {err : Error} (reason : c.Refuses owner args err) :
    Decides c owner args (c.refused err)
  | enter {c' : Callable} {e : Engine} {index : Nat} {slots passed : List Double}
    (there : owner = some e) (admitted : c.Admits owner args index) :
    Decides c owner args (c'.enter (e.code c.entry.unit) slots index passed)

theorem decides_invokeBuffer (counted : args.length = c.arity)
    (way : c.entry.strategy = .buffer) : c.Decides owner args (c.invokeBuffer owner args) := by
  have name : c.entry.startName = callerName := if_pos way
  unfold invokeBuffer
  rw [← name]
  split
  · next failed => exact .refuse (refuses_of_locate counted failed)
  · next e index located =>
    obtain ⟨there, admitted⟩ := admits_of_locate counted located
    split
    · next gone => exact .refuse (.noBuffer admitted way gone)
    · next buffer held =>
      split
      · next moved => exact .refuse (.stale admitted way held moved)
      -- The buffer is written here, past the last check.
      · exact .enter there admitted

theorem decides_invokePositional (counted : args.length = c.arity)
    (way : c.entry.strategy ≠ .buffer) :
    c.Decides owner args (c.invokePositional owner args) := by
  have name : c.entry.startName = calleeName := if_neg way
  unfold invokePositional
  rw [← name]
  split
  · next failed => exact .refuse (refuses_of_locate counted failed)
  · next e index located =>
    obtain ⟨there, admitted⟩ := admits_of_locate counted located
    split
    · next many => exact .refuse (.tooMany admitted way many)
    · exact .enter there admitted

theorem decides_invoke (c : Callable) (owner : Option Engine) (args : List Double) :
    c.Decides owner args (c.invoke owner args) := by
  unfold invoke
  split
  · next other => exact .refuse (.count other)
  · next counted =>
    split
    · next way => exact decides_invokeBuffer (not_not.mp counted) way
    · next way => exact decides_invokePositional (not_not.mp counted) way

theorem failed_cases (failed : (c.invoke owner args).result = .error err) :
    (c.Refuses owner args err ∧ c.invoke owner args = c.refused err) ∨
      ∃ e index slots passed fault, owner = some e ∧ c.Admits owner args index ∧
        Machine.run (e.code c.entry.unit) slots index passed = .error fault ∧
        err = .internal (.machine fault) := by
  have decided := c.decides_invoke owner args
  generalize c.invoke owner args = r at decided failed ⊢
  cases decided with
  | refuse reason =>
    cases failed
    exact .inl ⟨reason, rfl⟩
  | enter there admitted =>
    unfold enter at failed
    split at failed
    · cases failed
    · next stopped =>
      cases failed
      exact .inr ⟨_, _, _, _, _, there, admitted, stopped, rfl⟩

end Callable

theorem Engine.exists_declared_of_lookup {u : CompilationUnit} {name : String} {index : Nat}
    (found : (ownFunctions u).lookup name = some index) :
    ∃ d, u.declarations[index]? = some d := by
  obtain ⟨before, after, split, -⟩ := List.lookup_eq_some_iff.mp found
  have own : (name, index) ∈ ownFunctions u := by simp [split]
  obtain ⟨⟨d, k⟩, declared, same⟩ := List.mem_filterMap.mp own
  rw [List.mem_zipIdx_iff_getElem?] at declared
  by_cases mine : d.linkage = .own
  · have kept := (if_pos mine).symm.trans same
    cases kept
    exact ⟨d, declared⟩
  · cases (if_neg mine).symm.trans same

def Entry.Safe (x : Entry) (e : Engine) : Prop :=
  ∃ (v : VerifiedUnit) (natives : Declaration → Native),
    e.code x.unit = v.unit.linked natives ∧ x.functions = Engine.ownFunctions v.unit

namespace Entry

variable {x y : Entry} {e e' : Engine}

theorem safe_of_compile {self : Nat} {v : VerifiedUnit}
    (compiled : e.compile self v = (e', .ok x)) : x.Safe e' := by
  obtain ⟨functions, linked, rfl, rfl⟩ := Engine.compile_cases compiled
  refine ⟨v, e.symbols.native, ?_, rfl⟩
  rw [← CompilationUnit.eq_linked_of_link linked]
  simp [Engine.code]

theorem Safe.mono (safe : x.Safe e) (unit : y.unit = x.unit) (functions : y.functions = x.functions)
    (kept : Engine.Keeps x.unit e e') : y.Safe e' := by
  obtain ⟨v, natives, code, own⟩ := safe
  refine ⟨v, natives, ?_, functions.trans own⟩
  rw [unit, kept.code_eq.1, code]

theorem Safe.endless (safe : x.Safe e) {name : String} {index : Nat} {slots args : List Double}
    {fault : MachineFault} (found : x.functions.lookup name = some index)
    (stopped : Machine.run (e.code x.unit) slots index args = .error fault) :
    fault = .tooDeep ∧ Machine.Endless (e.code x.unit) index := by
  obtain ⟨v, natives, code, own⟩ := safe
  rw [own] at found
  obtain ⟨d, declared⟩ := Engine.exists_declared_of_lookup found
  rw [code] at stopped ⊢
  exact (CompilationUnit.faults_eq_nil_iff.mp v.sound).endless_of_run declared stopped

end Entry

namespace Session

variable {s s' : Session} {past : List Event} {event : Option Event} {touch : Option Nat}
  {x : Entry}

/-- Whatever was done to units and entries, living entries lead to verified code. -/
structure Safe (past : List Event) (s : Session) : Prop where
  recorded : View.Recorded past s.view
  entries : ∀ x, s.Holds x → x.Lives past → ∃ e, s.engine? x.engine = some e ∧ x.Safe e

theorem Safe.entry_effect (safe : Safe past s) (effect : s.Effect event touch s')
    (holds : s'.Holds x) (lives : x.Lives (event.toList ++ past)) :
    ∃ e, s'.engine? x.engine = some e ∧ x.Safe e := by
  -- Tampering changes neither the unit nor the functions, so a tampered entry is an old
  -- one like any other.
  have old {y : Entry} (held : s.Holds y) (tag : y.tag = x.tag)
      (functions : x.functions = y.functions) : ∃ e, s'.engine? x.engine = some e ∧ x.Safe e := by
    have unit : x.unit = y.unit := (congrArg Tag.unit tag).symm
    have engine : x.engine = y.engine := (congrArg Tag.engine tag).symm
    rw [Entry.Lives, unit, engine] at lives
    obtain ⟨lived, e, e', there, there', kept⟩ := effect.keeps safe.recorded held lives
    obtain ⟨f, found, code⟩ := safe.entries y held lived
    cases there.symm.trans found
    exact ⟨e', engine ▸ there', code.mono unit functions kept⟩
  rcases effect.holds_cases holds with ⟨y, held, alike⟩ | ⟨-, y, change, held, rfl⟩ |
    ⟨e, e', v, there, compiled, -⟩
  · exact old held (by rw [alike.eq]; rfl) (by rw [alike.eq])
  · exact old held (y.tag_tamper change).symm (by cases change <;> rfl)
  · exact ⟨e', there, Entry.safe_of_compile compiled⟩

theorem Safe.effect (safe : Safe past s) (effect : s.Effect event touch s') :
    Safe (event.toList ++ past) s' where
  recorded := safe.recorded.move effect.moves
  entries := fun _ => safe.entry_effect effect

theorem safe_run (platform : Platform) (folded : Bool) (vars : List Variable) (graph : Graph)
    (nodes : List Nat) (commands : List Command) :
    Safe ((opened platform folded vars graph nodes).past commands)
      ((opened platform folded vars graph nodes).run commands).1 := by
  have first : Safe [] (opened platform folded vars graph nodes) :=
    { recorded := recorded_opened platform folded vars graph nodes
      entries := by simp [Holds, opened, on] }
  simpa using run_induction (P := fun past _ s => Safe past s)
    (fun _ _ _ _ _ _ before effect => before.effect effect) [] [] first commands

/-- The code of an entry that does not live is gone, even if its generation has come
again. -/
theorem code_of_freed (recorded : View.Recorded past s.view) (holds : s.Holds x) {e : Engine}
    (there : s.engine? x.engine = some e) (ended : ¬ x.Lives past) : e.code x.unit = [] := by
  have kept : .dropped x.engine ∉ past := by
    intro gone
    rw [engine?_of_dropped recorded gone] at there
    cases there
  have freed : .freed x.engine ∈ Event.since (.compiled x.engine x.unit) past := by
    by_contra unfreed
    exact ended ⟨kept, unfreed⟩
  have none := countP_modules_of_kept recorded holds kept
  rw [if_pos freed, modules, there, List.countP_eq_zero] at none
  have absent : e.modules.find? (·.unit = x.unit) = Option.none := List.find?_eq_none.mpr none
  rw [Engine.code, absent]
  rfl

/-- A call that the machine stops never comes back, unless its engine has freed its
code since and its generations have come round. -/
theorem Safe.stopped (safe : Safe past s) {j : Nat} {c : Callable} {args : List Double}
    {e : Engine} {index : Nat} {slots passed : List Double} {fault : MachineFault}
    (there : s.callables[j]? = some (some c)) (engine : s.engine? c.entry.engine = some e)
    (admitted : c.Admits (s.engine? c.entry.engine) args index)
    (stopped : Machine.run (e.code c.entry.unit) slots index passed = .error fault) :
    fault = .tooDeep ∧ (Machine.Endless (e.code c.entry.unit) index ∨
      ¬ c.entry.Lives past ∧ UInt64.size ≤ past.count (.freed c.entry.engine)) := by
  have holds := holds_of_callable there
  by_cases lives : c.entry.Lives past
  · obtain ⟨f, found, code⟩ := safe.entries c.entry holds lives
    cases found.symm.trans engine
    obtain ⟨deep, endless⟩ := code.endless admitted.found stopped
    exact ⟨deep, .inl endless⟩
  · -- Without functions there is no depth to call into.
    rw [code_of_freed safe.recorded holds engine lives] at stopped
    obtain ⟨words, -, called⟩ := Machine.error_of_run stopped
    cases called
    refine ⟨rfl, .inr ⟨lives, ?_⟩⟩
    by_contra few
    exact lives ((isLive_iff safe.recorded holds (Nat.lt_of_not_le few)).mp admitted.live)

end Session

def Command.callable? : Command → Option Nat
  | .invoke k _ | .isLive k | .address k _ | .dropCallable k | .buffer k | .tamperCallable k _ =>
    some k
  | _ => none

theorem error_of_map {r : Except ε α} {f : α → β} {e : ε} (h : r.map f = .error e) :
    r = .error e := by
  cases r with
  | error e' => exact congrArg Except.error (Except.error.inj h)
  | ok a => cases h

theorem SymbolTable.fst_registerCollected_of_error {t : SymbolTable} {name : String} {err : Error}
    (refused : (t.registerCollected name).2.result = .error err) :
    (t.registerCollected name).1 = t := by
  revert refused
  unfold registerCollected
  split
  · exact fst_register_of_error
  · exact fun _ => rfl

namespace Session

variable {s s' : Session} {o : Outcome} {err : Error}

structure SameCode (s s' : Session) : Prop where
  engines : s'.engines = s.engines
  callables : s'.callables = s.callables

/-- Commands about callables, however many, are answered alike. -/
def CallsAlike (s s' : Session) : Prop :=
  ∀ cs : List Command, (∀ q ∈ cs, q.callable?.isSome) →
    (s'.run cs).2.map (Option.map Outcome.seen) = (s.run cs).2.map (Option.map Outcome.seen)

theorem SameCode.step (same : SameCode s s') {q : Command} (about : q.callable?.isSome) :
    (s'.step q).map Outcome.seen = (s.step q).map Outcome.seen ∧
      SameCode (((s.step q).map (·.session)).getD s) (((s'.step q).map (·.session)).getD s') := by
  have engine (k : Nat) : s'.engine? k = s.engine? k := by rw [engine?, engine?, same.engines]
  cases q with
  | invoke k args =>
    simp only [Session.step, invoke, same.callables, engine]
    cases (s.callables[k]?).join with
    | none => exact ⟨rfl, same⟩
    | some c => exact ⟨rfl, same.engines, rfl⟩
  | isLive k | address k _ | buffer k =>
    simp only [Session.step, askCallable, same.callables, engine]
    cases (s.callables[k]?).join <;> exact ⟨rfl, same⟩
  | dropCallable k | tamperCallable k change =>
    simp only [Session.step, same.callables]
    cases (s.callables[k]?).join with
    | none => exact ⟨rfl, same⟩
    | some c => exact ⟨rfl, same.engines, rfl⟩
  | _ => cases about

theorem SameCode.callsAlike (same : SameCode s s') : CallsAlike s s' := by
  intro cs
  induction cs generalizing s s' with
  | nil => intro _; rfl
  | cons q cs ih =>
    intro about
    obtain ⟨seen, next⟩ := same.step (about q List.mem_cons_self)
    simp only [run, List.map_cons, seen]
    rw [ih next fun q later => about q (List.mem_cons_of_mem _ later)]

theorem compile_failed {k v : Nat} (answered : s.step (.compile k v) = some o)
    (failed : o.result = .error err) :
    o.session = { s with verified := s.verified.set v none } := by
  simp only [step, compile, Option.bind_eq_bind, Option.bind_eq_some_iff] at answered
  obtain ⟨e, engine, u, -, answered⟩ := answered
  split at answered
  · cases answered
    cases failed
  · next stopped =>
    cases answered
    rw [Engine.fst_compile_of_error stopped, setEngine_self engine]

theorem compileExpr_failed {k i : Nat} {vs : List Variable} {strategy : Strategy}
    (answered : s.compileExpr k i vs strategy = some o) (failed : o.result = .error err) :
    o.session = s := by
  simp only [compileExpr, Option.bind_eq_bind, Option.bind_eq_some_iff] at answered
  obtain ⟨e, engine, answered⟩ := answered
  split at answered
  · cases answered
    cases failed
  · next stopped =>
    cases answered
    rw [Engine.fst_compileExpr_of_error stopped, setEngine_self engine]

theorem setTable_self {r : TableRef} {t : SymbolTable} (there : s.table? r = some t) :
    s.setTable r t = s := by
  cases r with
  | table k =>
    obtain ⟨bound, same⟩ := List.getElem?_eq_some_iff.mp there
    rw [setTable, ← same, List.set_getElem_self]
  | engine k =>
    obtain ⟨e, engine, rfl⟩ := Option.map_eq_some_iff.mp there
    rw [setTable, engine]
    exact setEngine_self engine

theorem register_failed {r : TableRef} {i : Intrinsic} (answered : s.step (.register r i) = some o)
    (failed : o.result = .error err) : o.session = s := by
  obtain ⟨t, there, rfl⟩ := Option.map_eq_some_iff.mp answered
  have refused := error_of_map failed
  show s.setTable r (t.register i).1 = s
  rw [SymbolTable.fst_register_of_error refused, setTable_self there]

theorem registerCollected_failed {r : TableRef} {name : String}
    (answered : s.step (.registerCollected r name) = some o) (failed : o.result = .error err) :
    o.session = s := by
  obtain ⟨t, there, rfl⟩ := Option.map_eq_some_iff.mp answered
  have refused := error_of_map failed
  show s.setTable r (t.registerCollected name).1 = s
  rw [SymbolTable.fst_registerCollected_of_error refused, setTable_self there]

theorem invoke_failed {j : Nat} {args : List Double} (answered : s.step (.invoke j args) = some o)
    (failed : o.result = .error err) :
    ∃ c, s.callables[j]? = some (some c) ∧
      (c.invoke (s.engine? c.entry.engine) args).result = .error err ∧
      (c.invoke (s.engine? c.entry.engine) args = c.refused err →
        o.session = s ∧ o.notes = []) := by
  obtain ⟨c, there, rfl⟩ := Option.map_eq_some_iff.mp answered
  refine ⟨c, Option.join_eq_some_iff.mp there, error_of_map failed, fun refused => ?_⟩
  rw [refused]
  refine ⟨?_, rfl⟩
  show { s with callables := s.callables.set j (some c) } = s
  rw [set_of_join there]

end Session

/-- In every session, with units, entries and callables tampered with or not: a compilation
that fails leaves engines and callables as they were, whichever stage it failed at; a
registration that fails leaves all tables as they were; and a call that fails was refused
for what its checks found, with everything as it was, every buffer included, and without a
call of any function. What passes the checks returns, or it never comes back; only a
generation that came again lets a call pass to code that is gone. -/
theorem Session.failures_change_nothing (platform : Platform) (folded : Bool)
    (vars : List Variable) (graph : Graph) (nodes : List Nat) (commands : List Command)
    {c : Command} {o : Outcome} {err : Error}
    (answered : ((opened platform folded vars graph nodes).run commands).1.step c = some o)
    (failed : o.result = .error err) :
    let s := ((opened platform folded vars graph nodes).run commands).1
    let past := (opened platform folded vars graph nodes).past commands
    (∀ k v, c = .compile k v →
      o.session = { s with verified := s.verified.set v none } ∧ CallsAlike s o.session) ∧
    (∀ k node params strategy, c = .compileExpr k node params strategy → o.session = s) ∧
    (∀ k node strategy, c = .compileInferred k node strategy → o.session = s) ∧
    (∀ r i, c = .register r i → o.session = s) ∧
    (∀ r name, c = .registerCollected r name → o.session = s) ∧
    ∀ j args, c = .invoke j args → ∃ d, s.callables[j]? = some (some d) ∧
      ((d.Refuses (s.engine? d.entry.engine) args err ∧
          (d.invoke (s.engine? d.entry.engine) args).calls = [] ∧
          o.session = s ∧ o.notes = []) ∨
        err = .internal (.machine .tooDeep) ∧
          ∃ e index, s.engine? d.entry.engine = some e ∧ d.Admits (some e) args index ∧
            (Machine.Endless (e.code d.entry.unit) index ∨
              ¬ d.entry.Lives past ∧ UInt64.size ≤ past.count (.freed d.entry.engine))) := by
  intro s past
  refine ⟨?compile, ?expression, ?inferred, ?register, ?collected, ?invoke⟩
  case compile =>
    rintro k v rfl
    have left := compile_failed answered failed
    refine ⟨left, SameCode.callsAlike ?_⟩
    rw [left]
    exact ⟨rfl, rfl⟩
  case expression =>
    rintro k node params strategy rfl
    simp only [step, Option.bind_eq_bind, Option.bind_eq_some_iff] at answered
    obtain ⟨i, -, vs, -, answered⟩ := answered
    exact compileExpr_failed answered failed
  case inferred =>
    rintro k node strategy rfl
    simp only [step, Option.bind_eq_bind, Option.bind_eq_some_iff] at answered
    obtain ⟨i, -, answered⟩ := answered
    exact compileExpr_failed answered failed
  case register =>
    rintro r i rfl
    exact register_failed answered failed
  case collected =>
    rintro r name rfl
    exact registerCollected_failed answered failed
  case invoke =>
    rintro j args rfl
    obtain ⟨d, there, fails, unchanged⟩ := invoke_failed answered failed
    refine ⟨d, there, ?_⟩
    rcases Callable.failed_cases fails with ⟨reason, refused⟩ |
      ⟨e, index, slots, passed, fault, engine, admitted, stopped, rfl⟩
    · exact .inl ⟨reason, by rw [refused]; rfl, unchanged refused⟩
    · have safe : Safe past s := safe_run platform folded vars graph nodes commands
      obtain ⟨rfl, ended⟩ := safe.stopped there engine admitted stopped
      exact .inr ⟨rfl, e, index, engine, engine ▸ admitted, ended⟩

def Session.moveBuffer : List Command :=
  [.newEngine .default, .register (.engine 0) ⟨"half", 1, Catalogue.half⟩,
    .compileInferred 0 none .buffer, .invoke 0 [3], .tamperCallable 0 .shift]

/-- The buffer still holds the arguments of the call before, and the call succeeds once the
buffer is back. -/
theorem Session.moveBuffer_changes_nothing :
    let s := ((opened .standard false [] lessHalf [2]).run moveBuffer).1
    ∃ o d, s.step (.invoke 0 [27]) = some o ∧ o.result = .error .staleBufferAddress ∧
      o.session = s ∧ o.notes = [] ∧ s.callables[0]? = some (some d) ∧
      (d.invoke (s.engine? d.entry.engine) [27]).calls = [] ∧
      d.entry.buffer.map (·.values) = some [3] ∧
      ((o.session.run [.tamperCallable 0 .unshift]).1.step (.invoke 0 [27])).map
        (·.result.isOk) = some true := by
  intro s
  have stale : (s.step (.invoke 0 [27])).map (fun o => o.result.map fun _ => ()) =
      some (.error .staleBufferAddress) := by decide +kernel
  have buffer : s.callables[0]?.join.map (fun d => d.entry.buffer.map (·.values)) =
      some (some [3]) := by decide +kernel
  have again : ((s.run [.tamperCallable 0 .unshift]).1.step (.invoke 0 [27])).map
      (·.result.isOk) = some true := by decide +kernel
  obtain ⟨o, answered, result⟩ := Option.map_eq_some_iff.mp stale
  have failed : o.result = .error .staleBufferAddress := error_of_map result
  obtain ⟨-, -, -, -, -, calls⟩ := failures_change_nothing .standard false [] lessHalf [2]
    moveBuffer answered failed
  obtain ⟨d, there, ⟨-, none, same, silent⟩ | ⟨deep, -⟩⟩ := calls 0 [27] rfl
  · rw [there, Option.join_some, Option.map_some, Option.some.injEq] at buffer
    exact ⟨o, d, answered, failed, same, silent, there, none, buffer, same ▸ again⟩
  · cases deep

end ExprCompiler
