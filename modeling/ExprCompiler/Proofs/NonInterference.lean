import ExprCompiler.Proofs.Provenance

/-! Calls do not interfere. Of a session a call reads its entry and the code that
the engine keeps for it. Earlier arguments, calls of other callables, changes of
symbols and the fate of other engines reach neither, so a call is answered alike
whenever it is made, as long as its entry lives. -/
namespace ExprCompiler

theorem Entry.Alike.locate_cases {x y : Entry} {e e' : Engine} (alike : x.Alike y)
    (generation : e'.generation = e.generation) (name : String) :
    (∃ err, x.locate (some e) name = .error err ∧ y.locate (some e') name = .error err) ∨
      ∃ index, x.locate (some e) name = .ok (e, index) ∧
        y.locate (some e') name = .ok (e', index) := by
  rw [alike.eq]
  simp only [locate, generation]
  split
  · cases x.functions.lookup name with
    | none => exact .inl ⟨_, rfl, rfl⟩
    | some index => exact .inr ⟨index, rfl, rfl⟩
  · exact .inl ⟨_, rfl, rfl⟩

namespace Callable

def shown (r : Return) : List Call × Except Error Double := (r.calls, r.result)

variable {c c' : Callable} {e e' : Engine} {args : List Double}

theorem shown_enter (c c' : Callable) (code : List Function) (slots : List Double) (index : Nat)
    (args : List Double) :
    shown (c'.enter code slots index args) = shown (c.enter code slots index args) := by
  unfold enter
  split <;> rfl

theorem shown_invokeBuffer (alike : c.entry.Alike c'.entry)
    (generation : e'.generation = e.generation)
    (code : e'.code c.entry.unit = e.code c.entry.unit) (counted : args.length = c.entry.arity) :
    shown (c'.invokeBuffer (some e') args) = shown (c.invokeBuffer (some e) args) := by
  have filled := alike.written args counted
  unfold invokeBuffer
  rcases alike.locate_cases generation callerName with ⟨err, found, found'⟩ | ⟨index, found, found'⟩
  · rw [found, found']
    rfl
  · rw [found, found']
    cases old : c.entry.buffer with
    | none =>
      rw [old, Option.map_none, Option.map_eq_none_iff] at filled
      rw [filled]
      rfl
    | some buffer =>
      rw [old, Option.map_some, Option.map_eq_some_iff] at filled
      obtain ⟨buffer', new, same⟩ := filled
      have baked : c'.entry.baked = c.entry.baked := by rw [alike.eq]
      simp only [new, same, baked, alike.unit, code]
      split
      · rfl
      · exact shown_enter ..

theorem shown_invokePositional (alike : c.entry.Alike c'.entry)
    (generation : e'.generation = e.generation)
    (code : e'.code c.entry.unit = e.code c.entry.unit)
    (buffer : c'.entry.buffer = c.entry.buffer) :
    shown (c'.invokePositional (some e') args) = shown (c.invokePositional (some e) args) := by
  unfold invokePositional
  rcases alike.locate_cases generation calleeName with ⟨err, found, found'⟩ | ⟨index, found, found'⟩
  · rw [found, found']
    rfl
  · rw [found, found']
    simp only [buffer, alike.unit, code]
    split
    · rfl
    · exact shown_enter ..

theorem shown_invoke (alike : c.entry.Alike c'.entry) (generation : e'.generation = e.generation)
    (code : e'.code c.entry.unit = e.code c.entry.unit) (args : List Double) :
    shown (c'.invoke (some e') args) = shown (c.invoke (some e) args) := by
  have arity : c'.arity = c.arity := by rw [Callable.arity, alike.eq, Callable.arity]
  have strategy : c'.entry.strategy = c.entry.strategy := by rw [alike.eq]
  unfold invoke
  rw [arity, strategy]
  by_cases counted : args.length = c.arity
  · rw [if_neg (not_not.mpr counted), if_neg (not_not.mpr counted)]
    split
    · exact shown_invokeBuffer alike generation code counted
    · next other => exact shown_invokePositional alike generation code (alike.unread other)
  · rw [if_pos counted, if_pos counted]
    rfl

def received (c : Callable) (args : List Double) : List Double :=
  if c.entry.strategy = .buffer then Machine.passed args args.length else args

theorem length_received (c : Callable) (args : List Double) :
    (c.received args).length = args.length := by
  unfold received
  split
  · exact Machine.length_passed _ _
  · rfl

theorem received_eq (few : args.length ≤ Machine.slotLimit) : c.received args = args := by
  unfold received
  split
  · exact Machine.passed_eq few
  · rfl

/-- A call into code that was compiled from a unit as lowering makes it evaluates the
expression on the arguments that it receives. -/
theorem invoke_received {g : Graph} {root : Nat} {folded : Bool} {t : SymbolTable}
    {params : List Variable} {strategy : Strategy} {v : VerifiedUnit} {e₀ e₁ : Engine}
    {self : Nat} {x : Entry}
    (lowered : (g.lower root folded t v.unit.id params strategy).result = .ok v.unit)
    (compiled : e₀.compile self v = (e₁, .ok x)) (alike : x.Alike c.entry)
    (kept : Engine.Keeps c.entry.unit e₁ e) (counted : args.length = c.arity) :
    ∃ y, (c.invoke (some e) args).result = .ok y ∧
      (g.lowered root folded).1.evaluate (g.lowered root folded).2 e₀.symbols params
        (c.received args) = ((c.invoke (some e) args).calls, .ok y) := by
  obtain ⟨used, l, resolved, distinct, walked, same⟩ := Graph.lower_cases lowered
  obtain ⟨functions, linked, rfl, rfl⟩ := Engine.compile_cases compiled
  have fields := l.fields_finish v.unit.id params.length (g.lowered root folded).2 used
  have tables := Lowering.agrees_of_walk walked
  have own := Lowering.ownFunctions_finish tables v.unit.id (g.lowered root folded).2 used
  rw [← same] at fields own
  have loaded := Lowering.loaded_of_link tables (same ▸ linked)
  have code : e.code c.entry.unit = functions := by
    rw [kept.code_eq.1, alike.unit]
    simp [Engine.code]
  have live : e.generation = c.entry.generation := by rw [kept.code_eq.2, alike.generation]
  have arity : args.length = params.length := by rw [counted, Callable.arity, alike.eq, fields.2.1]
  have located : c.entry.functions = Engine.ownFunctions v.unit := by rw [alike.eq]
  have way : c.entry.strategy = used := by rw [alike.eq, fields.2.2]
  unfold received
  rw [way]
  cases Strategy.resolve_cases resolved with
  | inl positional =>
    obtain ⟨rfl, eight⟩ := positional
    obtain ⟨y, calls, ran, evaluated⟩ := loaded.run_callee
      ((c.entry.buffer.map (·.values)).getD []) rfl arity distinct walked
    rw [invoke_positional counted way (arity ▸ eight) live (by rw [located, own]; rfl)
      (code ▸ ran)]
    exact ⟨y, rfl, evaluated⟩
  | inr buffered =>
    subst buffered
    have size : c.entry.buffer.map (·.size) = some params.length := by
      rw [alike.size, same]
      simp [Lowering.finish, ArgBuffer.new, ArgBuffer.size]
    obtain ⟨buffer, held, size⟩ := Option.map_eq_some_iff.mp size
    have baked : c.entry.baked = some 0 := by
      rw [alike.eq, same]
      rfl
    obtain ⟨y, calls, ran, evaluated⟩ := loaded.run_caller_passed args rfl distinct walked
    rw [invoke_buffer counted way live (by rw [located, own]; rfl) held (arity.trans size.symm)
      baked (code ▸ ran)]
    exact ⟨y, rfl, by rwa [if_pos rfl, arity]⟩

theorem exists_invoke (genuine : c.entry.Genuine e) (counted : args.length = c.arity) :
    ∃ y, (c.invoke (some e) args).result = .ok y := by
  obtain ⟨v, e₀, e₁, x, ⟨g, root, folded, t, params, strategy, lowered⟩, compiled, alike, kept⟩ :=
    genuine
  obtain ⟨y, returned, -⟩ := invoke_received lowered compiled alike kept counted
  exact ⟨y, returned⟩

def reply (p : List Call × Except Error Double) : List Note × Except Error Answer :=
  (p.1.filterMap Note.ofCall, p.2.map .value)

end Callable

def Outcome.seen (o : Outcome) : List Note × Except Error Answer := (o.notes, o.result)

namespace Session

variable {s s' : Session} {past : List Event} {event : Option Event} {touch : Option Nat} {j : Nat}
  {c : Callable} {e : Engine}

theorem seen_invoke (there : s.callables[j]? = some (some c)) (args : List Double) :
    (s.step (.invoke j args)).map Outcome.seen =
      some (Callable.reply (Callable.shown (c.invoke (s.engine? c.entry.engine) args))) := by
  simp only [step, invoke, there, Option.join_some, Option.map_some]
  rfl

/-- Since a moment when a callable had this number it was at most called, and its engine
has kept its code while its entry lived. -/
structure Kept (c : Callable) (e : Engine) (j : Nat) (past : List Event) (s : Session) : Prop where
  recorded : View.Recorded past s.view
  place : ∃ p, s.callables[j]? = some p ∧ ∀ c', p = some c' → c.entry.Alike c'.entry ∧
    (c.entry.Lives past →
      ∃ e', s.engine? c.entry.engine = some e' ∧ Engine.Keeps c.entry.unit e e')

theorem Kept.step (kept : Kept c e j past s) {q : Command} {o : Outcome}
    (answered : s.step q = some o) (untampered : ∀ change, q ≠ .tamperCallable j change) :
    Kept c e j ((q.event? o).toList ++ past) o.session where
  recorded := kept.recorded.move (step_effect answered).moves
  place := by
    have effect := step_effect answered
    obtain ⟨p, there, before⟩ := kept.place
    obtain ⟨p', there', used⟩ := used_step answered untampered there
    refine ⟨p', there', fun c'' found => ?_⟩
    obtain ⟨c', rfl, called⟩ := used c'' found
    obtain ⟨alike, keeps⟩ := before c' rfl
    refine ⟨alike.trans called.alike, fun lives => ?_⟩
    obtain ⟨lived, f, f', engine, engine', next⟩ :=
      effect.keeps kept.recorded (holds_of_callable there) (alike.lives.mpr lives)
    rw [alike.engine] at engine engine'
    rw [alike.unit] at next
    obtain ⟨e', same, keeps⟩ := keeps (alike.lives.mp lived)
    cases engine.symm.trans same
    exact ⟨f', engine', keeps.trans next⟩

theorem kept_run (recorded : View.Recorded past s.view) (there : s.callables[j]? = some (some c))
    (engine : s.engine? c.entry.engine = some e) {cs : List Command}
    (untampered : ∀ change, .tamperCallable j change ∉ cs) :
    Kept c e j (s.past cs ++ past) (s.run cs).1 := by
  have first : Kept c e j past s := by
    refine ⟨recorded, some c, there, fun c' same => ?_⟩
    cases same
    exact ⟨.refl _, fun _ => ⟨e, engine, .refl⟩⟩
  refine run_induction_step (P := fun past _ s => Kept c e j past s) cs ?_ past [] first
  intro q among past touched s o kept answered
  exact kept.step answered fun change same => untampered change (same ▸ among)

end Session

/-- Two calls of one callable with the same arguments are answered alike, whatever
was done before them, and between them but for tampering with it, if the engine was not
dropped and has not freed its code since it compiled it. They return a value if neither
the unit nor the entry was ever touched. -/
theorem Session.invocations_do_not_interfere (platform : Platform) (folded : Bool)
    (vars : List Variable) (graph : Graph) (nodes : List Nat) (before between : List Command)
    {j : Nat} {c c' : Callable}
    (first : ((opened platform folded vars graph nodes).run before).1.callables[j]? = some (some c))
    (second : ((opened platform folded vars graph nodes).run (before ++ between)).1.callables[j]? =
      some (some c'))
    (lives : c.entry.Lives ((opened platform folded vars graph nodes).past (before ++ between)))
    (untampered : ∀ change, .tamperCallable j change ∉ between) (args : List Double) :
    let s := ((opened platform folded vars graph nodes).run before).1
    let s' := ((opened platform folded vars graph nodes).run (before ++ between)).1
    c.entry.isLive (s.engine? c.entry.engine) ∧ c'.entry.isLive (s'.engine? c'.entry.engine) ∧
      (s'.step (.invoke j args)).map Outcome.seen = (s.step (.invoke j args)).map Outcome.seen ∧
      (c.entry.unit ∉ (opened platform folded vars graph nodes).touched before →
        args.length = c.arity → ∃ notes x,
           (s.step (.invoke j args)).map Outcome.seen = some (notes, .ok (.value x))) := by
  intro s s'
  have built := built_run platform folded vars graph nodes before
  have holds : s.Holds c.entry := holds_of_callable first
  have later : s' = (s.run between).1 := run_append _ before between
  rw [past_append] at lives
  have once := (recorded_run built.recorded between).once (holds.compiled built.recorded)
  have lived := ((Entry.lives_append once).mp lives).2
  obtain ⟨e, engine, generation⟩ := holds.engine built.recorded lived
  obtain ⟨p, there, kept⟩ := (kept_run built.recorded first engine untampered).place
  obtain ⟨alike, keeps⟩ := kept c' (Option.some.inj (there.symm.trans (later ▸ second)))
  obtain ⟨e', engine', keeps⟩ := keeps lives
  obtain ⟨code, generation'⟩ := keeps.code_eq
  rw [← later, ← alike.engine] at engine'
  refine ⟨?_, ?_, ?_, fun unedited counted => ?_⟩
  · rw [engine]
    exact decide_eq_true generation
  · rw [engine']
    exact decide_eq_true (generation'.trans (generation.trans alike.generation.symm))
  · rw [seen_invoke second, seen_invoke first, engine', engine,
      Callable.shown_invoke alike generation' code]
  · obtain ⟨f, found, genuine⟩ := built.entries c.entry holds unedited lived
    cases engine.symm.trans found
    obtain ⟨x, returned⟩ := Callable.exists_invoke genuine counted
    rw [seen_invoke first, engine, Callable.reply, Callable.shown, returned]
    exact ⟨_, x, rfl⟩

def lessHalf : Graph :=
  ⟨#[.var ⟨0, "x"⟩, .call "half" [0], .binary .sub 1 0], by decide⟩

def Session.compileTwice : List Command :=
  [.newEngine .default, .register (.engine 0) ⟨"half", 1, Catalogue.half⟩,
    .compileInferred 0 none .buffer, .compileInferred 0 none .buffer]

/-- Both are called, one of them wrongly, the function is replaced by another one,
the expression is compiled again, and another engine comes and goes. -/
def Session.disturb : List Command :=
  [.invoke 0 [8], .invoke 1 [64], .invoke 0 [], .clearRegistered (.engine 0),
    .register (.engine 0) ⟨"half", 1, .unary fun x => x / 4.0⟩, .compileInferred 0 none .buffer,
    .newEngine .default, .freeMemory 1, .dropEngine 1]

theorem Session.lessHalf_invocations_do_not_interfere :
    let start := opened .standard false [] lessHalf [2]
    let s := (start.run compileTwice).1
    let s' := (start.run (compileTwice ++ disturb)).1
    ∃ notes x, (s.step (.invoke 0 [27])).map Outcome.seen = some (notes, .ok (.value x)) ∧
      (s'.step (.invoke 0 [27])).map Outcome.seen = some (notes, .ok (.value x)) := by
  intro start s s'
  have first : (s.callables[0]?.join).map (fun c => (c.entry.engine, c.entry.unit, c.arity)) =
      some (0, 0, 1) := by decide +kernel
  have second : s'.callables[0]?.join.isSome = true := by decide +kernel
  have happened : start.past (compileTwice ++ disturb) =
      [.dropped 1, .freed 1, .compiled 0 2, .compiled 0 1, .compiled 0 0] := by decide +kernel
  have touched : start.touched compileTwice = [] := by decide +kernel
  obtain ⟨c, there, same⟩ := Option.map_eq_some_iff.mp first
  obtain ⟨c', there'⟩ := Option.isSome_iff_exists.mp second
  simp only [Prod.mk.injEq] at same
  obtain ⟨engine, unit, arity⟩ := same
  rw [Option.join_eq_some_iff] at there there'
  have lives : c.entry.Lives (start.past (compileTwice ++ disturb)) := by
    rw [Entry.Lives, happened, engine, unit]
    decide
  have untouched : c.entry.unit ∉ start.touched compileTwice := by simp [touched]
  have untampered : ∀ change, .tamperCallable 0 change ∉ disturb := by simp [disturb]
  obtain ⟨-, -, alike, returns⟩ := invocations_do_not_interfere .standard false [] lessHalf [2]
    compileTwice disturb there there' lives untampered [27]
  obtain ⟨notes, x, returned⟩ := returns untouched arity.symm
  exact ⟨notes, x, returned, alike.trans returned⟩

end ExprCompiler
