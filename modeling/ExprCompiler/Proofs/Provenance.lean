import ExprCompiler.Proofs.Lifetime

/-! Where the entries of a session come from. What is held was compiled from a
unit as lowering made it, unless that unit or entry was touched; calls change only
what a buffer holds; and while an entry lives its engine keeps its code. -/
namespace ExprCompiler

theorem ArgBuffer.write_write (b : ArgBuffer) {args args' : List Double}
    (same : args.length = args'.length) : (b.write args).write args' = b.write args' := by
  have left : (args.take b.size ++ b.values.drop args.length).drop args'.length =
      b.values.drop args'.length := by
    rw [← same, List.drop_append, List.drop_eq_nil_of_le (by simp), List.nil_append,
      List.drop_drop, List.length_take]
    rcases Nat.le_total args.length b.size with fits | long
    · simp [fits]
    · rw [List.drop_eq_nil_of_le (Nat.le_add_right_of_le long), List.drop_eq_nil_of_le long]
  rw [write, size_write, write, write, left]

namespace Entry

/-- Entries that differ at most in what a call overwrites. -/
structure Alike (x y : Entry) : Prop where
  eq : y = { x with buffer := y.buffer }
  written : ∀ args, args.length = x.arity →
    y.buffer.map (·.write args) = x.buffer.map (·.write args)
  unread : x.strategy ≠ .buffer → y.buffer = x.buffer

variable {x y z : Entry}

theorem Alike.refl (x : Entry) : x.Alike x := ⟨rfl, fun _ _ => rfl, fun _ => rfl⟩

theorem Alike.trans (first : x.Alike y) (second : y.Alike z) : x.Alike z where
  eq := by rw [second.eq, first.eq]
  written := by
    intro args counted
    have counted' : args.length = y.arity := by rw [first.eq, counted]
    exact (second.written args counted').trans (first.written args counted)
  unread := by
    intro other
    have other' : y.strategy ≠ .buffer := by rwa [first.eq]
    exact (second.unread other').trans (first.unread other)

theorem Alike.size (h : x.Alike y) : y.buffer.map (·.size) = x.buffer.map (·.size) := by
  have written := h.written (List.replicate x.arity 0) List.length_replicate
  have sizes := congrArg (Option.map ArgBuffer.size) written
  simpa only [Option.map_map, Function.comp_def, ArgBuffer.size_write] using sizes

theorem Alike.unit (h : x.Alike y) : y.unit = x.unit := by rw [h.eq]

theorem Alike.engine (h : x.Alike y) : y.engine = x.engine := by rw [h.eq]

theorem Alike.generation (h : x.Alike y) : y.generation = x.generation := by rw [h.eq]

/-- By the past, an entry lives: its engine is there and has not freed its code
since it compiled it. -/
def Lives (x : Entry) (past : List Event) : Prop :=
  .dropped x.engine ∉ past ∧ .freed x.engine ∉ Event.since (.compiled x.engine x.unit) past

theorem Alike.lives (h : x.Alike y) {past : List Event} : y.Lives past ↔ x.Lives past := by
  rw [h.eq]
  rfl

theorem lives_append {newer past : List Event} (once : .compiled x.engine x.unit ∉ newer) :
    x.Lives (newer ++ past) ↔
      (.dropped x.engine ∉ newer ∧ .freed x.engine ∉ newer) ∧ x.Lives past := by
  have later : Event.since (.compiled x.engine x.unit) (newer ++ past) =
      newer ++ Event.since (.compiled x.engine x.unit) past := by
    apply List.takeWhile_append_of_pos
    intro e he
    exact decide_eq_true fun same => once (same ▸ he)
  rw [Lives, later, List.mem_append, List.mem_append, not_or, not_or]
  exact and_and_and_comm

end Entry

theorem Callable.alike_invoke (c : Callable) (owner : Option Engine) (args : List Double) :
    c.entry.Alike (c.invoke owner args).callable.entry := by
  unfold invoke
  split
  · exact .refl _
  · next counted =>
    split
    · next strategy =>
      rcases c.callable_invokeBuffer owner args with same | ⟨buffer, held, same⟩
      · rw [same]
        exact .refl _
      · rw [same]
        refine ⟨rfl, fun args' counted' => ?_, fun other => absurd strategy other⟩
        rw [held]
        exact congrArg some (buffer.write_write ((not_not.mp counted).trans counted'.symm))
    · rw [callable_invokePositional]
      exact .refl _

theorem Callable.Used.alike {c c' : Callable} (h : c.Used c') : c.entry.Alike c'.entry := by
  induction h with
  | refl => exact .refl _
  | @invoke c' _ owner args ih => exact ih.trans (c'.alike_invoke owner args)

theorem Engine.Keeps.trans {unit : Nat} {e e' e'' : Engine} (first : Keeps unit e e')
    (second : Keeps unit e' e'') : Keeps unit e e'' := by
  induction second with
  | refl => exact first
  | symbols _ t ih => exact .symbols ih t
  | compile _ self v other ih => exact .compile ih self v other

theorem View.Recorded.once {newer past : List Event} {v : View} {k u : Nat}
    (recorded : Recorded (newer ++ past) v) (compiled : .compiled k u ∈ past) :
    .compiled k u ∉ newer := by
  intro again
  have few := recorded.single u
  have older : 0 < past.countP (·.unit? = some u) := List.countP_pos_iff.mpr ⟨_, compiled, by simp⟩
  have newest : 0 < newer.countP (·.unit? = some u) := List.countP_pos_iff.mpr ⟨_, again, by simp⟩
  rw [places, List.countP_append] at few
  split at few <;> omega

namespace Session

variable {s s' : Session} {past : List Event} {touched : List Nat} {event : Option Event}
  {touch : Option Nat} {x : Entry}

theorem holds_of_callable {j : Nat} {c : Callable} (there : s.callables[j]? = some (some c)) :
    s.Holds c.entry := .inr ⟨c, List.mem_of_getElem? there, rfl⟩

theorem Holds.compiled (holds : s.Holds x) (recorded : View.Recorded past s.view) :
    .compiled x.engine x.unit ∈ past := by
  obtain ⟨later, earlier, rfl, -⟩ := recorded.dated x.tag holds.view
  simp [Entry.tag]

theorem Holds.engine (holds : s.Holds x) (recorded : View.Recorded past s.view)
    (lives : x.Lives past) : ∃ e, s.engine? x.engine = some e ∧ e.generation = x.generation := by
  have held := holding_engine? recorded x.engine
  rw [if_pos (holds.engine_lt recorded), Holding.after, if_neg lives.1,
    Option.map_eq_some_iff] at held
  obtain ⟨e, there, same⟩ := held
  refine ⟨e, there, ?_⟩
  have now : e.generation = .ofNat (past.count (.freed x.engine)) :=
    congrArg Holding.generation same
  obtain ⟨later, earlier, rfl, then_, new, -⟩ := recorded.split holds.view
  simp only [Entry.tag] at now then_ new
  have quiet : later.count (.freed x.engine) = 0 := by
    rw [List.count_eq_zero, ← Event.since_append new earlier]
    exact lives.2
  rw [now, then_]
  simp [quiet]

/-- While an entry lives, its engine keeps its code, whatever happens. -/
theorem Effect.keeps (effect : s.Effect event touch s') (recorded : View.Recorded past s.view)
    (holds : s.Holds x) (lives : x.Lives (event.toList ++ past)) :
    x.Lives past ∧ ∃ e e', s.engine? x.engine = some e ∧ s'.engine? x.engine = some e' ∧
      Engine.Keeps x.unit e e' := by
  have once := (recorded.move effect.moves).once (holds.compiled recorded)
  obtain ⟨⟨kept, unfreed⟩, lived⟩ := (Entry.lives_append once).mp lives
  obtain ⟨e, there, -⟩ := holds.engine recorded lived
  have turns := effect.turns x.engine
  rw [there] at turns
  refine ⟨lived, e, ?_⟩
  generalize s'.engine? x.engine = o at turns
  cases turns with
  | same _ => exact ⟨e, there, rfl, .refl⟩
  | symbols becomes => exact ⟨_, there, rfl, .symbols .refl _⟩
  | freed => exact absurd (List.mem_singleton_self _) unfreed
  | dropped => exact absurd (List.mem_singleton_self _) kept
  | @compiled e e' v y compiled =>
    have kept : Engine.Keeps x.unit e (e.compile x.engine v).1 := by
      refine .compile .refl x.engine v fun same => once ?_
      rw [same]
      exact List.mem_singleton_self _
    rw [compiled] at kept
    exact ⟨e', there, rfl, kept⟩

end Session

def CompilationUnit.Lowered (u : CompilationUnit) : Prop :=
  ∃ (g : Graph) (root : Nat) (folded : Bool) (t : SymbolTable) (params : List Variable)
    (strategy : Strategy), (g.lower root folded t u.id params strategy).result = .ok u

theorem Graph.lowered_of_lower {g : Graph} {root : Nat} {folded : Bool} {t : SymbolTable}
    {id : Nat} {params : List Variable} {strategy : Strategy} {u : CompilationUnit}
    (h : (g.lower root folded t id params strategy).result = .ok u) : u.Lowered :=
  ⟨g, root, folded, t, params, strategy, (id_of_lower h).symm ▸ h⟩

/-- An entry to code that an engine has kept since it compiled it from a unit as
lowering makes it. -/
def Entry.Genuine (x : Entry) (e : Engine) : Prop :=
  ∃ (v : VerifiedUnit) (e₀ e₁ : Engine) (y : Entry), v.unit.Lowered ∧
    e₀.compile x.engine v = (e₁, .ok y) ∧ y.Alike x ∧ Engine.Keeps x.unit e₁ e

theorem Entry.Genuine.mono {x y : Entry} {e e' : Engine} (genuine : x.Genuine e)
    (alike : x.Alike y) (kept : Engine.Keeps x.unit e e') : y.Genuine e' := by
  obtain ⟨v, e₀, e₁, z, lowered, compiled, like, keeps⟩ := genuine
  refine ⟨v, e₀, e₁, z, lowered, alike.engine ▸ compiled, like.trans alike, ?_⟩
  rw [alike.unit]
  exact keeps.trans kept

namespace Session

variable {s s' : Session} {past : List Event} {touched : List Nat} {event : Option Event}
  {touch : Option Nat} {x : Entry}

theorem Effect.units_cases (effect : s.Effect event touch s') {u : CompilationUnit}
    (there : some u ∈ s'.units) : some u ∈ s.units ∨ touch = some u.id ∨ u.Lowered := by
  cases effect with
  | still | fold _ _ | buffers _ | newTable _ | newEngine _ | free _ | drop _ | compile _ _ _
  | waste _ | wrap _ _ | unwrapped _ | compileExpr _ _ | tamper _ _ | tamperCallable _ _
  | invoke _ _ | forget _ => exact .inl there
  | @symbols r _ _ _ _ => cases r <;> exact .inl there
  | verify _ _ | refuse _ => exact .inl (mem_of_mem_set_none there)
  | lower lowered =>
    rcases mem_or_eq_of_mem_concat there with old | rfl
    · exact .inl old
    · exact .inr (.inr (Graph.lowered_of_lower lowered))
  | @edit j u' _ change =>
    rcases mem_or_eq_of_mem_set_some there with old | rfl
    · exact .inl old
    · exact .inr (.inl (congrArg some (u'.id_edit change).symm))

theorem Effect.verified_cases (effect : s.Effect event touch s') {v : VerifiedUnit}
    (there : some v ∈ s'.verified) : some v ∈ s.verified ∨ some v.unit ∈ s.units := by
  cases effect with
  | still | fold _ _ | buffers _ | newTable _ | newEngine _ | free _ | drop _ | lower _ | edit _ _
  | refuse _ | wrap _ _ | unwrapped _ | compileExpr _ _ | tamper _ _ | tamperCallable _ _
  | invoke _ _ | forget _ => exact .inl there
  | @symbols r _ _ _ _ => cases r <;> exact .inl there
  | compile _ _ _ | waste _ => exact .inl (mem_of_mem_set_none there)
  | verify found verified =>
    rcases mem_or_eq_of_mem_concat there with old | rfl
    · exact .inl old
    · rw [CompilationUnit.unit_of_verify verified]
      exact .inr (mem_of_getElem?_join found)

theorem Effect.holds_cases (effect : s.Effect event touch s') (holds : s'.Holds x) :
    (∃ y, s.Holds y ∧ y.Alike x) ∨
      (touch = some x.unit ∧ ∃ y change, s.Holds y ∧ x = y.tamper change) ∨
      ∃ (e e' : Engine) (v : VerifiedUnit), s'.engine? x.engine = some e' ∧
        e.compile x.engine v = (e', .ok x) ∧ (some v ∈ s.verified ∨ v.unit.Lowered) := by
  have old (held : s.Holds x) : ∃ y, s.Holds y ∧ y.Alike x := ⟨x, held, .refl x⟩
  cases effect with
  | still | fold _ _ | buffers _ | newTable _ | newEngine _ | free _ | drop _ | lower _ | edit _ _
  | verify _ _ | refuse _ | waste _ => exact .inl (old holds)
  | @symbols r _ _ _ _ => cases r <;> exact .inl (old holds)
  | unwrapped _ => exact .inl (old (holds.imp_left mem_of_mem_set_none))
  | @compile j k e e' v y engine there compiled =>
    rcases holds with entry | callable
    · rcases mem_or_eq_of_mem_concat entry with entry | rfl
      · exact .inl (old (.inl entry))
      · have home : x.engine = k := congrArg Tag.engine (Engine.holding_of_compile compiled).2
        subst home
        refine .inr (.inr ⟨e, e', v, ?_, compiled, .inl (mem_of_getElem?_join there)⟩)
        exact (engine?_setEngine engine _).trans (if_pos rfl)
    · exact .inl (old (.inr callable))
  | wrap there wrapped =>
    rcases holds with entry | ⟨c, callable, rfl⟩
    · exact .inl (old (.inl (mem_of_mem_set_none entry)))
    · rcases mem_or_eq_of_mem_concat callable with callable | rfl
      · exact .inl (old (.inr ⟨c, callable, rfl⟩))
      · rw [Callable.entry_of_ofEntry wrapped]
        exact .inl ⟨_, .inl (mem_of_getElem?_join there), .refl _⟩
  | @compileExpr i k e e' vs strategy notes d engine compiled =>
    rcases holds with entry | ⟨c, callable, rfl⟩
    · exact .inl (old (.inl entry))
    · rcases mem_or_eq_of_mem_concat callable with callable | rfl
      · exact .inl (old (.inr ⟨c, callable, rfl⟩))
      · obtain ⟨u, v, y, lowered, verified, linked, rfl⟩ := Engine.compileExpr_cases compiled
        have home : y.engine = k := congrArg Tag.engine (Engine.holding_of_compile linked).2
        subst home
        refine .inr (.inr ⟨e, e', v, ?_, linked, .inr ?_⟩)
        · exact (engine?_setEngine engine _).trans (if_pos rfl)
        · rw [CompilationUnit.unit_of_verify verified]
          exact Graph.lowered_of_lower lowered
  | @tamper j y there change =>
    rcases holds with entry | callable
    · rcases mem_or_eq_of_mem_set_some entry with entry | rfl
      · exact .inl (old (.inl entry))
      · exact .inr (.inl ⟨(congrArg (some ·.unit) (y.tag_tamper change)).symm, y, change,
          .inl (mem_of_getElem?_join there), rfl⟩)
    · exact .inl (old (.inr callable))
  | @tamperCallable j d there change =>
    rcases holds with entry | ⟨c, callable, rfl⟩
    · exact .inl (old (.inl entry))
    · rcases mem_or_eq_of_mem_set_some callable with callable | rfl
      · exact .inl (old (.inr ⟨c, callable, rfl⟩))
      · exact .inr (.inl ⟨(congrArg (some ·.unit) (d.entry.tag_tamper change)).symm, d.entry,
          change, .inr ⟨d, mem_of_getElem?_join there, rfl⟩, rfl⟩)
  | @invoke j d there args =>
    rcases holds with entry | ⟨c, callable, rfl⟩
    · exact .inl (old (.inl entry))
    · rcases mem_or_eq_of_mem_set_some callable with callable | rfl
      · exact .inl (old (.inr ⟨c, callable, rfl⟩))
      · exact .inl ⟨d.entry, .inr ⟨d, mem_of_getElem?_join there, rfl⟩, d.alike_invoke _ args⟩
  | forget _ =>
    rcases holds with entry | ⟨c, callable, rfl⟩
    · exact .inl (old (.inl entry))
    · exact .inl (old (.inr ⟨c, mem_of_mem_set_none callable, rfl⟩))

/-- What has not been touched is as lowering and compiling made it. -/
structure Built (past : List Event) (touched : List Nat) (s : Session) : Prop where
  recorded : View.Recorded past s.view
  units : ∀ u, some u ∈ s.units → u.id ∉ touched → u.Lowered
  verified : ∀ v, some v ∈ s.verified → v.unit.id ∉ touched → v.unit.Lowered
  entries : ∀ x, s.Holds x → x.unit ∉ touched → x.Lives past →
    ∃ e, s.engine? x.engine = some e ∧ x.Genuine e

theorem Built.entry_effect (built : Built past touched s) (effect : s.Effect event touch s')
    (holds : s'.Holds x) (untouched : x.unit ∉ touch.toList ++ touched)
    (lives : x.Lives (event.toList ++ past)) :
    ∃ e, s'.engine? x.engine = some e ∧ x.Genuine e := by
  rw [List.mem_append, not_or] at untouched
  rcases effect.holds_cases holds with ⟨y, held, alike⟩ | ⟨rfl, -⟩ |
    ⟨e, e', v, there, compiled, source⟩
  · obtain ⟨lived, e, e', there, there', kept⟩ :=
      effect.keeps built.recorded held (alike.lives.mp lives)
    obtain ⟨f, found, genuine⟩ := built.entries y held (alike.unit ▸ untouched.2) lived
    cases there.symm.trans found
    exact ⟨e', alike.engine ▸ there', genuine.mono alike kept⟩
  · exact absurd (by simp) untouched.1
  · have unit : x.unit = v.unit.id := congrArg Tag.unit (Engine.holding_of_compile compiled).2
    have lowered : v.unit.Lowered := by
      rcases source with waiting | lowered
      · exact built.verified v waiting (unit ▸ untouched.2)
      · exact lowered
    exact ⟨e', there, v, e, e', x, lowered, compiled, .refl x, .refl⟩

theorem Built.effect (built : Built past touched s) (effect : s.Effect event touch s') :
    Built (event.toList ++ past) (touch.toList ++ touched) s' where
  recorded := built.recorded.move effect.moves
  units := by
    intro u there untouched
    rw [List.mem_append, not_or] at untouched
    rcases effect.units_cases there with old | rfl | lowered
    · exact built.units u old untouched.2
    · exact absurd (by simp) untouched.1
    · exact lowered
  verified := by
    intro v there untouched
    rw [List.mem_append, not_or] at untouched
    rcases effect.verified_cases there with old | unit
    · exact built.verified v old untouched.2
    · exact built.units v.unit unit untouched.2
  entries := fun _ => built.entry_effect effect

theorem built_run (platform : Platform) (folded : Bool) (vars : List Variable) (graph : Graph)
    (nodes : List Nat) (commands : List Command) :
    Built ((opened platform folded vars graph nodes).past commands)
      ((opened platform folded vars graph nodes).touched commands)
      ((opened platform folded vars graph nodes).run commands).1 := by
  have first : Built [] [] (opened platform folded vars graph nodes) :=
    { recorded := recorded_opened platform folded vars graph nodes
      units := by simp [opened, on]
      verified := by simp [opened, on]
      entries := by simp [Holds, opened, on] }
  simpa using run_induction (fun _ _ _ _ _ _ => Built.effect) [] [] first commands

end Session
end ExprCompiler
