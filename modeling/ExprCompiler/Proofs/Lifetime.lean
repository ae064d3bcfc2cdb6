import ExprCompiler.Proofs.SessionView

/-! How long entries live. What a run did to the code of its engines is written
down from commands and answers alone, without generations and modules. That
record says what every engine holds, and so which entries are live. -/
namespace ExprCompiler

namespace Event

def unit? : Event → Option Nat
  | compiled _ u => some u
  | _ => none

@[simp] theorem unit?_compiled (k u : Nat) : (compiled k u).unit? = some u := rfl

def unitOn (k : Nat) (e : Event) : Option Nat := if e.engine = k then e.unit? else none

def act : Event → Holding → Option Holding
  | compiled _ u, h => some ⟨h.generation, u :: h.units⟩
  | freed _, h => some ⟨h.generation + 1, []⟩
  | dropped _, _ => none

/-- What happened after the last `e`. A past has the newest event first. -/
def since (e : Event) (past : List Event) : List Event := past.takeWhile (· ≠ e)

@[simp] theorem since_cons (e f : Event) (past : List Event) :
    since e (f :: past) = if f = e then [] else f :: since e past := by
  by_cases same : f = e <;> simp [since, same]

end Event

def Holding.after (past : List Event) (k : Nat) : Option Holding :=
  if .dropped k ∈ past then none
  else some ⟨.ofNat (past.count (.freed k)),
    (Event.since (.freed k) past).filterMap (Event.unitOn k)⟩

section Past

variable {past : List Event} {k : Nat}

theorem Holding.after_cons (e : Event) :
    after (e :: past) k = if e.engine = k then (after past k).bind e.act else after past k := by
  by_cases here : e.engine = k
  · cases e with
    | compiled k' u =>
      cases here
      by_cases gone : Event.dropped k' ∈ past
      · simp [after, Event.engine, gone]
      · simp [after, Event.engine, gone, Event.act, Event.unitOn]
    | freed k' =>
      cases here
      by_cases gone : Event.dropped k' ∈ past
      · simp [after, Event.engine, gone]
      · simp [after, Event.engine, gone, Event.act]
    | dropped k' =>
      cases here
      have nothing (h : Option Holding) : h.bind (Event.dropped k').act = none := by
        cases h <;> rfl
      rw [if_pos rfl, nothing]
      simp [after, Event.engine]
  · have other (f : Event) (named : f.engine = k) : e ≠ f := fun same => here (same ▸ named)
    have notFreed := other (.freed k) rfl
    have notDropped := other (.dropped k) rfl
    simp [after, Event.unitOn, here, notFreed, notDropped.symm]

theorem Holding.after_of_unnamed (unnamed : ∀ e ∈ past, e.engine ≠ k) :
    after past k = some ⟨0, []⟩ := by
  induction past with
  | nil => rfl
  | cons e past ih =>
    rw [after_cons, if_neg (unnamed e List.mem_cons_self)]
    exact ih fun f hf => unnamed f (List.mem_cons_of_mem e hf)

theorem Event.count_units (past : List Event) (k u : Nat) :
    (past.filterMap (unitOn k)).count u = past.count (.compiled k u) := by
  rw [List.count_filterMap, List.count_eq_countP]
  refine List.countP_congr fun e _ => ?_
  cases e with
  | compiled k' u' => by_cases same : k' = k <;> simp [unitOn, engine, unit?, same]
  | freed k' | dropped k' => simp [unitOn, unit?]

theorem Event.since_append {e : Event} {later : List Event} (new : e ∉ later)
    (earlier : List Event) : since e (later ++ e :: earlier) = later := by
  induction later with
  | nil => simp
  | cons f later ih =>
    rw [List.mem_cons, not_or] at new
    simp [Ne.symm new.1, ih new.2]

theorem Event.count_since_append {e f : Event} {later earlier : List Event} (other : e ≠ f)
    (new : e ∉ later) (old : e ∉ earlier) :
    (since f (later ++ e :: earlier)).count e = if f ∈ later then 0 else 1 := by
  induction later with
  | nil =>
    have none : (since f earlier).count e = 0 :=
      List.count_eq_zero.mpr fun he => old ((List.takeWhile_sublist _).subset he)
    simp [other, none]
  | cons g later ih =>
    rw [List.mem_cons, not_or] at new
    by_cases again : g = f
    · simp [again]
    · simp [again, Ne.symm again, Ne.symm new.1, ih new.2]

end Past

namespace View

variable {past : List Event} {v w : View} {event : Option Event}

def places (past : List Event) (v : View) (u : Nat) : Nat :=
  past.countP (·.unit? = some u) + v.units.count (some u) + v.verified.count (some u)

def Holds (v : View) (x : Tag) : Prop := some x ∈ v.entries ∨ some x ∈ v.callables

def Dated (past : List Event) (x : Tag) : Prop :=
  ∃ later earlier, past = later ++ .compiled x.engine x.unit :: earlier ∧
    x.generation = .ofNat (earlier.count (.freed x.engine))

/-- The past accounts for all that a view shows. -/
structure Recorded (past : List Event) (v : View) : Prop where
  named : ∀ e ∈ past, e.engine < v.engines.length
  engines : ∀ k < v.engines.length, v.engines[k]? = some (Holding.after past k)
  single : ∀ u, v.places past u ≤ if u < v.nextUnit then 1 else 0
  dated : ∀ x, v.Holds x → Dated past x

theorem Recorded.after_eq {k : Nat} {h : Holding} (recorded : Recorded past v)
    (there : v.engines[k]? = some (some h)) : Holding.after past k = some h := by
  have bound := (List.getElem?_eq_some_iff.mp there).1
  exact Option.some.inj ((recorded.engines k bound).symm.trans there)

theorem Recorded.generation_eq {k : Nat} {h : Holding} (recorded : Recorded past v)
    (there : v.engines[k]? = some (some h)) :
    h.generation = .ofNat (past.count (.freed k)) := by
  have held := recorded.after_eq there
  unfold Holding.after at held
  split at held
  · cases held
  · cases held
    rfl

theorem Moves.engines_eq (moves : v.Moves event w) :
    match event with
    | none => w.engines = v.engines ∨ w.engines = v.engines ++ [some ⟨0, []⟩]
    | some e => ∃ h, v.engines[e.engine]? = some (some h) ∧
      w.engines = v.engines.set e.engine (e.act h) := by
  cases moves with
  | still | lower | verify _ | refuse _ | waste _ | wrap _ | unwrapped _ | forget _ =>
    exact .inl rfl
  | create => exact .inr rfl
  | free there | drop there | compile there _ | compileExpr there => exact ⟨_, there, rfl⟩

theorem Moves.holds_cases {x : Tag} (moves : v.Moves event w) (holds : w.Holds x) :
    v.Holds x ∨ ∃ h, v.engines[x.engine]? = some (some h) ∧ x.generation = h.generation ∧
      event = some (.compiled x.engine x.unit) := by
  cases moves with
  | still | lower | verify _ | refuse _ | waste _ | create | free _ | drop _ => exact .inl holds
  | unwrapped j => exact .inl (holds.imp_left mem_of_mem_set_none)
  | forget j => exact .inl (holds.imp_right mem_of_mem_set_none)
  | wrap there =>
    rcases holds with entry | callable
    · exact .inl (.inl (mem_of_mem_set_none entry))
    · rcases mem_or_eq_of_mem_concat callable with old | rfl
      · exact .inl (.inr old)
      · exact .inl (.inl (List.mem_of_getElem? there))
  | compile there _ =>
    rcases holds with entry | callable
    · rcases mem_or_eq_of_mem_concat entry with old | rfl
      · exact .inl (.inl old)
      · exact .inr ⟨_, there, rfl, rfl⟩
    · exact .inl (.inr callable)
  | compileExpr there =>
    rcases holds with entry | callable
    · exact .inl (.inl entry)
    · rcases mem_or_eq_of_mem_concat callable with old | rfl
      · exact .inl (.inr old)
      · exact .inr ⟨_, there, rfl, rfl⟩

theorem count_set_none {l : List (Option Nat)} {j u : Nat} (there : l[j]? = some (some u))
    (u' : Nat) :
    (l.set j none).count (some u') + (if u = u' then 1 else 0) = l.count (some u') := by
  obtain ⟨bound, same⟩ := List.getElem?_eq_some_iff.mp there
  rw [List.count_set bound, same]
  by_cases it : u = u'
  · subst it
    have counted : 0 < l.count (some u) := List.count_pos_iff.mpr (List.mem_of_getElem? there)
    simp
    omega
  · simp [it]

theorem count_set_none_le (l : List (Option Nat)) (j u : Nat) :
    (l.set j none).count (some u) ≤ l.count (some u) := by
  by_cases bound : j < l.length
  · rw [List.count_set bound]
    simp
  · rw [List.set_eq_of_length_le (Nat.le_of_not_lt bound)]

theorem Moves.single (moves : v.Moves event w)
    (single : ∀ u, v.places past u ≤ if u < v.nextUnit then 1 else 0) (u : Nat) :
    w.places (event.toList ++ past) u ≤ if u < w.nextUnit then 1 else 0 := by
  -- A number is given out once, and its unit is moved from place to place and never copied.
  have before := single u
  cases moves with
  | still | wrap _ | unwrapped _ | forget _ | create | free _ | drop _ => exact before
  | lower =>
    simp only [places, Option.toList, List.nil_append, List.count_append, List.count_singleton]
      at before ⊢
    grind
  | verify there =>
    have moved := count_set_none there u
    simp only [places, Option.toList, List.nil_append, List.count_append, List.count_singleton]
      at before ⊢
    grind
  | refuse j =>
    have fewer := count_set_none_le v.units j u
    simp only [places, Option.toList, List.nil_append] at before ⊢
    omega
  | waste j =>
    have fewer := count_set_none_le v.verified j u
    simp only [places, Option.toList, List.nil_append] at before ⊢
    omega
  | compile _ ready =>
    have moved := count_set_none ready u
    simp only [places, Option.toList, List.cons_append, List.nil_append, List.countP_cons,
      Event.unit?_compiled] at before ⊢
    grind
  | compileExpr _ =>
    simp only [places, Option.toList, List.cons_append, List.nil_append, List.countP_cons,
      Event.unit?_compiled] at before ⊢
    grind

theorem Dated.append {x : Tag} (dated : Dated past x) (newer : List Event) :
    Dated (newer ++ past) x := by
  obtain ⟨later, earlier, rfl, generation⟩ := dated
  exact ⟨newer ++ later, earlier, (List.append_assoc ..).symm, generation⟩

theorem Recorded.named_move (recorded : Recorded past v) (moves : v.Moves event w) :
    ∀ e ∈ event.toList ++ past, e.engine < w.engines.length := by
  intro e he
  have engines := moves.engines_eq
  cases event with
  | none =>
    have bound := recorded.named e he
    rcases engines with same | more
    · rwa [same]
    · rw [more, List.length_append]
      omega
  | some e' =>
    obtain ⟨h, there, same⟩ := engines
    rw [same, List.length_set]
    rcases List.mem_cons.mp he with rfl | he
    · exact (List.getElem?_eq_some_iff.mp there).1
    · exact recorded.named e he

theorem Recorded.engines_move (recorded : Recorded past v) (moves : v.Moves event w) :
    ∀ k < w.engines.length,
      w.engines[k]? = some (Holding.after (event.toList ++ past) k) := by
  intro k bound
  have engines := moves.engines_eq
  cases event with
  | none =>
    rcases engines with same | more
    · rw [same] at bound ⊢
      exact recorded.engines k bound
    · rw [more] at bound ⊢
      rcases Nat.lt_or_ge k v.engines.length with old | new
      · rw [List.getElem?_append_left old]
        exact recorded.engines k old
      · -- No event names the engine that is made now.
        have last : k = v.engines.length := by
          rw [List.length_append, List.length_singleton] at bound
          omega
        rw [last, List.getElem?_concat_length]
        refine congrArg some (Holding.after_of_unnamed fun e he => ?_).symm
        exact Nat.ne_of_lt (recorded.named e he)
  | some e =>
    obtain ⟨h, there, same⟩ := engines
    rw [same, List.length_set] at bound
    rw [same, Option.toList_some, List.singleton_append, Holding.after_cons]
    by_cases here : e.engine = k
    · subst here
      rw [List.getElem?_set_self bound, if_pos rfl, recorded.after_eq there]
      rfl
    · rw [List.getElem?_set_ne here, if_neg here]
      exact recorded.engines k bound

theorem Recorded.move (recorded : Recorded past v) (moves : v.Moves event w) :
    Recorded (event.toList ++ past) w where
  named := recorded.named_move moves
  engines := recorded.engines_move moves
  single := moves.single recorded.single
  dated := by
    intro x holds
    rcases moves.holds_cases holds with old | ⟨h, there, generation, rfl⟩
    · exact (recorded.dated x old).append _
    · exact ⟨[], past, rfl, generation.trans (recorded.generation_eq there)⟩

theorem Recorded.filter_eq {x : Tag} (recorded : Recorded past v) (holds : v.Holds x) :
    past.filter (·.unit? = some x.unit) = [.compiled x.engine x.unit] := by
  obtain ⟨later, earlier, rfl, -⟩ := recorded.dated x holds
  have few := recorded.single x.unit
  have counted : later.countP (·.unit? = some x.unit) = 0 ∧
      earlier.countP (·.unit? = some x.unit) = 0 := by
    simp only [places, List.countP_append, List.countP_cons, Event.unit?_compiled, decide_true,
      if_true] at few
    split at few <;> omega
  rw [List.countP_eq_length_filter, List.countP_eq_length_filter, List.length_eq_zero_iff,
    List.length_eq_zero_iff] at counted
  simp [counted]

theorem Recorded.split {x : Tag} (recorded : Recorded past v) (holds : v.Holds x) :
    ∃ later earlier, past = later ++ .compiled x.engine x.unit :: earlier ∧
      x.generation = .ofNat (earlier.count (.freed x.engine)) ∧
      .compiled x.engine x.unit ∉ later ∧ .compiled x.engine x.unit ∉ earlier := by
  have once := recorded.filter_eq holds
  obtain ⟨later, earlier, rfl, generation⟩ := recorded.dated x holds
  have counted := congrArg (List.count (.compiled x.engine x.unit)) once
  rw [List.count_filter (by simp)] at counted
  simp only [List.count_append, List.count_cons_self, List.count_nil] at counted
  refine ⟨later, earlier, rfl, generation, ?_, ?_⟩ <;> rw [← List.count_eq_zero] <;> omega

theorem Recorded.engine_lt {x : Tag} (recorded : Recorded past v) (holds : v.Holds x) :
    x.engine < v.engines.length := by
  obtain ⟨later, earlier, rfl, -⟩ := recorded.dated x holds
  exact recorded.named (.compiled x.engine x.unit) (by simp)

end View

theorem Entry.locate_of_dead {x : Entry} {owner : Option Engine} (dead : x.isLive owner = false)
    (name : String) : x.locate owner name = .error .danglingEntry := by
  cases owner with
  | none => rfl
  | some e =>
    have older : e.generation ≠ x.generation := by simpa [isLive] using dead
    simp [locate, older]

theorem Callable.invoke_of_dead {c : Callable} {owner : Option Engine} {args : List Double}
    (dead : c.entry.isLive owner = false) (counted : args.length = c.arity) :
    c.invoke owner args = c.refused .danglingEntry := by
  unfold invoke
  rw [if_neg (not_not.mpr counted)]
  split
  · rw [invokeBuffer, Entry.locate_of_dead dead]
  · rw [invokePositional, Entry.locate_of_dead dead]

namespace Session

theorem recorded_run {s : Session} {past : List Event} (recorded : View.Recorded past s.view)
    (cs : List Command) : View.Recorded (s.past cs ++ past) (s.run cs).1.view :=
  run_induction (P := fun past _ s => View.Recorded past s.view)
    (fun _ _ _ _ _ _ before effect => before.move effect.moves) past [] recorded cs

/-- A session that has a graph and has compiled nothing. -/
def opened (platform : Platform) (folded : Bool) (vars : List Variable) (graph : Graph)
    (nodes : List Nat) : Session :=
  { on platform folded with vars := vars, graph := graph, nodes := nodes }

theorem recorded_opened (platform : Platform) (folded : Bool) (vars : List Variable)
    (graph : Graph) (nodes : List Nat) :
    View.Recorded [] (opened platform folded vars graph nodes).view where
  named := by simp
  engines := by simp [view, opened, on]
  single := by simp [View.places, view, opened, on]
  dated := by simp [View.Holds, view, opened, on]

def Holds (s : Session) (x : Entry) : Prop :=
  some x ∈ s.entries ∨ ∃ c, some c ∈ s.callables ∧ c.entry = x

variable {s : Session} {past : List Event} {x : Entry}

theorem Holds.view (holds : s.Holds x) : s.view.Holds x.tag := by
  rcases holds with entry | ⟨c, callable, rfl⟩
  · exact .inl (List.mem_map.mpr ⟨some x, entry, rfl⟩)
  · exact .inr (List.mem_map.mpr ⟨some c, callable, rfl⟩)

theorem holding_engine? (recorded : View.Recorded past s.view) (k : Nat) :
    (s.engine? k).map Engine.holding =
      if k < s.engines.length then Holding.after past k else none := by
  have length : s.view.engines.length = s.engines.length := List.length_map ..
  split
  · next bound =>
    have there := recorded.engines k (length ▸ bound)
    simp only [view, List.getElem?_map, Option.map_eq_some_iff] at there
    obtain ⟨e, found, same⟩ := there
    simp [engine?, found, same]
  · next bound =>
    simp [engine?, List.getElem?_eq_none (Nat.le_of_not_lt bound)]

theorem Holds.engine_lt (holds : s.Holds x) (recorded : View.Recorded past s.view) :
    x.engine < s.engines.length := by
  simpa [Session.view, Entry.tag] using recorded.engine_lt holds.view

theorem isLive_eq (recorded : View.Recorded past s.view) (bound : x.engine < s.engines.length) :
    x.isLive (s.engine? x.engine) =
      decide ((Holding.after past x.engine).map (·.generation) = some x.generation) := by
  have held := holding_engine? recorded x.engine
  rw [if_pos bound] at held
  rw [← held]
  cases s.engine? x.engine with
  | none => rfl
  | some e => simp [Entry.isLive, Engine.holding]

theorem isLive_iff (recorded : View.Recorded past s.view) (holds : s.Holds x)
    (few : past.count (.freed x.engine) < UInt64.size) :
    x.isLive (s.engine? x.engine) ↔
      .dropped x.engine ∉ past ∧
        .freed x.engine ∉ Event.since (.compiled x.engine x.unit) past := by
  rw [isLive_eq recorded (holds.engine_lt recorded), decide_eq_true_iff]
  obtain ⟨later, earlier, rfl, generation, new, -⟩ := recorded.split holds.view
  simp only [Entry.tag] at generation new few ⊢
  have total : (later ++ .compiled x.engine x.unit :: earlier).count (.freed x.engine) =
      later.count (.freed x.engine) + earlier.count (.freed x.engine) := by simp
  have unfreed : later.count (.freed x.engine) = 0 ↔ .freed x.engine ∉ later := List.count_eq_zero
  rw [Event.since_append new, ← unfreed, generation]
  rw [total] at few
  unfold Holding.after
  by_cases gone : Event.dropped x.engine ∈ later ++ .compiled x.engine x.unit :: earlier
  · simp [gone]
  · rw [if_neg gone, total]
    simp only [Option.map_some, Option.some.injEq, gone, not_false_eq_true, true_and]
    -- Few frees: two generations are the same word only if they are the same count.
    rw [← UInt64.toNat_inj, UInt64.toNat_ofNat_of_lt' few,
      UInt64.toNat_ofNat_of_lt' (Nat.lt_of_le_of_lt (Nat.le_add_left ..) few)]
    omega

def modules (s : Session) (k : Nat) : List Module := ((s.engine? k).map (·.modules)).getD []

theorem units_modules {k : Nat} (recorded : View.Recorded past s.view)
    (bound : k < s.engines.length) (kept : .dropped k ∉ past) :
    (s.modules k).map (·.unit) = (Event.since (.freed k) past).filterMap (Event.unitOn k) := by
  have held := holding_engine? recorded k
  rw [if_pos bound, Holding.after, if_neg kept, Option.map_eq_some_iff] at held
  obtain ⟨e, there, same⟩ := held
  rw [modules, there]
  exact congrArg Holding.units same

theorem engine?_of_dropped (recorded : View.Recorded past s.view) {k : Nat}
    (gone : .dropped k ∈ past) : s.engine? k = none := by
  have held := holding_engine? recorded k
  simpa [Holding.after, gone] using held

theorem countP_modules_of_kept (recorded : View.Recorded past s.view) (holds : s.Holds x)
    (kept : .dropped x.engine ∉ past) :
    (s.modules x.engine).countP (·.unit = x.unit) =
      if .freed x.engine ∈ Event.since (.compiled x.engine x.unit) past then 0 else 1 := by
  have counted : (s.modules x.engine).countP (·.unit = x.unit) =
      ((s.modules x.engine).map (·.unit)).count x.unit := by
    rw [List.count_eq_countP, List.countP_map]
    rfl
  rw [counted, units_modules recorded (holds.engine_lt recorded) kept, Event.count_units]
  obtain ⟨later, earlier, split, -, new, old⟩ := recorded.split holds.view
  simp only [Entry.tag] at split new old
  have since : Event.since (.compiled x.engine x.unit) past = later := by
    rw [split]
    exact Event.since_append new earlier
  rw [since, split]
  exact Event.count_since_append (by simp) new old

theorem countP_modules (recorded : View.Recorded past s.view) (holds : s.Holds x)
    (few : past.count (.freed x.engine) < UInt64.size) :
    (s.modules x.engine).countP (·.unit = x.unit) =
      if x.isLive (s.engine? x.engine) then 1 else 0 := by
  have live := isLive_iff recorded holds few
  by_cases gone : Event.dropped x.engine ∈ past
  · rw [modules, engine?_of_dropped recorded gone]
    rfl
  · rw [countP_modules_of_kept recorded holds gone]
    by_cases freed : Event.freed x.engine ∈ Event.since (.compiled x.engine x.unit) past
    · rw [if_pos freed, if_neg fun alive => (live.mp alive).2 freed]
    · rw [if_neg freed, if_pos (live.mpr ⟨gone, freed⟩)]

theorem event?_cases {c : Command} {o : Outcome} {e : Event} (h : c.event? o = some e) :
    (∃ k u, e = .compiled k u) ∨ (∃ k, c = .freeMemory k ∧ e = .freed k) ∨
      ∃ k, c = .dropEngine k ∧ e = .dropped k := by
  cases c with
  | freeMemory k => exact .inr (.inl ⟨k, rfl, (Option.some.inj h).symm⟩)
  | dropEngine k => exact .inr (.inr ⟨k, rfl, (Option.some.inj h).symm⟩)
  | compile k _ | compileExpr k _ _ _ | compileInferred k _ _ =>
    obtain ⟨u, -, same⟩ := Option.map_eq_some_iff.mp h
    exact .inl ⟨k, u, same.symm⟩
  | _ => cases h

theorem isLive_step {c : Command} {o : Outcome} (recorded : View.Recorded past s.view)
    (holds : s.Holds x) (answered : s.step c = some o) (notFreed : c ≠ .freeMemory x.engine)
    (notDropped : c ≠ .dropEngine x.engine) :
    x.isLive (o.session.engine? x.engine) = x.isLive (s.engine? x.engine) := by
  have next := recorded.move (step_moves answered)
  have compiled : Event.compiled x.engine x.unit ∈ (c.event? o).toList ++ past := by
    obtain ⟨later, earlier, rfl, -⟩ := recorded.dated x.tag holds.view
    simp [Entry.tag]
  have bound : x.engine < o.session.engines.length := by
    simpa [view, Event.engine] using next.named _ compiled
  have same : (Holding.after ((c.event? o).toList ++ past) x.engine).map (·.generation) =
      (Holding.after past x.engine).map (·.generation) := by
    cases happened : c.event? o with
    | none => rfl
    | some e =>
      show (Holding.after (e :: past) x.engine).map _ = _
      rw [Holding.after_cons]
      split
      · next here =>
        rcases event?_cases happened with ⟨k, u, rfl⟩ | ⟨k, rfl, rfl⟩ | ⟨k, rfl, rfl⟩
        · cases Holding.after past x.engine <;> rfl
        · exact absurd (congrArg Command.freeMemory here) notFreed
        · exact absurd (congrArg Command.dropEngine here) notDropped
      · rfl
  rw [isLive_eq next bound, isLive_eq recorded (holds.engine_lt recorded), same]

theorem freed_notes (recorded : View.Recorded past s.view) (k : Nat) :
    ((s.engine? k).map fun e => [Note.freedModules e.modules.length]) =
      if k < s.engines.length ∧ .dropped k ∉ past then
        some [.freedModules ((Event.since (.freed k) past).countP fun e => (e.unitOn k).isSome)]
      else none := by
  have held := holding_engine? recorded k
  by_cases kept : k < s.engines.length ∧ .dropped k ∉ past
  · rw [if_pos kept.1, Holding.after, if_neg kept.2, Option.map_eq_some_iff] at held
    obtain ⟨e, there, same⟩ := held
    have length : e.holding.units.length = _ := congrArg (·.units.length) same
    rw [List.length_filterMap_eq_countP] at length
    rw [if_pos kept, there, Option.map_some, ← length]
    simp [Engine.holding]
  · have gone : s.engine? k = none := by
      by_cases bound : k < s.engines.length
      · exact engine?_of_dropped recorded (not_not.mp fun left => kept ⟨bound, left⟩)
      · rwa [if_neg bound, Option.map_eq_none_iff] at held
    rw [if_neg kept, gone]
    rfl

end Session

structure Entry.Lifetime (x : Entry) (s : Session) (past : List Event) : Prop where
  compiled : past.filter (·.unit? = some x.unit) = [.compiled x.engine x.unit]
  live_iff : x.isLive (s.engine? x.engine) ↔
    .dropped x.engine ∉ past ∧ .freed x.engine ∉ Event.since (.compiled x.engine x.unit) past
  modules : (s.modules x.engine).countP (·.unit = x.unit) =
    if x.isLive (s.engine? x.engine) then 1 else 0
  dangling : x.isLive (s.engine? x.engine) = false →
    ∀ name, x.locate (s.engine? x.engine) name = .error .danglingEntry
  unaffected : ∀ c o, s.step c = some o → c ≠ .freeMemory x.engine → c ≠ .dropEngine x.engine →
    x.isLive (o.session.engine? x.engine) = x.isLive (s.engine? x.engine)

/-- An entry lives until the code of its engine is freed, however long the run and
whatever else happens in it. With 2^64 frees of one engine generations repeat. -/
theorem Session.lifetimes_of_run (platform : Platform) (folded : Bool) (vars : List Variable)
    (graph : Graph) (nodes : List Nat) (commands : List Command)
    (few : ∀ k,
      ((opened platform folded vars graph nodes).past commands).count (.freed k) < UInt64.size) :
    let s := ((opened platform folded vars graph nodes).run commands).1
    let past := (opened platform folded vars graph nodes).past commands
    (∀ x, s.Holds x → x.Lifetime s past) ∧
      (∀ (j : Nat) (c : Callable), s.callables[j]? = some (some c) →
        c.entry.isLive (s.engine? c.entry.engine) = false →
        (∀ name, s.step (.address j name) = some ⟨s, [], .error .danglingEntry⟩) ∧
          ∀ args, args.length = c.arity →
            s.step (.invoke j args) = some ⟨s, [], .error .danglingEntry⟩) ∧
      ∀ k,
        let freed :=
          if k < s.engines.length ∧ .dropped k ∉ past then
            some [Note.freedModules
              ((Event.since (.freed k) past).countP fun e => (e.unitOn k).isSome)]
          else none
        (s.step (.freeMemory k)).map (·.notes) = freed ∧
          (s.step (.dropEngine k)).map (·.notes) = freed := by
  intro s past
  have recorded : View.Recorded past s.view := by
    simpa using recorded_run (recorded_opened platform folded vars graph nodes) commands
  refine ⟨fun x holds => ?_, fun j c there dead => ?_, fun k => ?_⟩
  · exact {
      compiled := recorded.filter_eq holds.view
      live_iff := isLive_iff recorded holds (few x.engine)
      modules := countP_modules recorded holds (few x.engine)
      dangling := Entry.locate_of_dead
      unaffected := fun c o answered => isLive_step recorded holds answered }
  · refine ⟨fun name => ?_, fun args counted => ?_⟩
    · simp [step, askCallable, there, Entry.locate_of_dead dead, Except.map]
    · have same := set_of_join (Option.join_eq_some_iff.mpr there)
      simp [step, invoke, there, Callable.invoke_of_dead dead counted, Callable.refused, same,
        Except.map]
  · have notes := freed_notes recorded k
    refine ⟨?_, ?_⟩
    · rw [← notes]
      simp only [step, freeMemory, Option.map_map]
      rfl
    · rw [← notes]
      simp only [step, dropEngine, Option.map_map]
      rfl

def Session.freeOneOfTwo : List Command :=
  [.newEngine .default, .newEngine .default, .compileInferred 0 none .auto,
    .compileInferred 1 none .auto, .freeMemory 0]

theorem Session.freeOneOfTwo_lifetimes :
    let start := opened .standard false [] squaredHypotenuse [4]
    let s := (start.run freeOneOfTwo).1
    let past := [Event.freed 0, .compiled 1 1, .compiled 0 0]
    start.past freeOneOfTwo = past ∧
      ∃ c d, s.callables[0]? = some (some c) ∧ s.callables[1]? = some (some d) ∧
        c.entry.Lifetime s past ∧ c.entry.isLive (s.engine? c.entry.engine) = false ∧
        d.entry.Lifetime s past ∧ d.entry.isLive (s.engine? d.entry.engine) = true ∧
        (∀ args, args.length = c.arity →
          s.step (.invoke 0 args) = some ⟨s, [], .error .danglingEntry⟩) ∧
        (s.step (.dropEngine 0)).map (·.notes) = some [.freedModules 0] ∧
        (s.step (.dropEngine 1)).map (·.notes) = some [.freedModules 1] := by
  intro start s past
  have happened : start.past freeOneOfTwo = past := by decide +kernel
  have few (k : Nat) : (start.past freeOneOfTwo).count (.freed k) < UInt64.size := by
    rw [happened]
    exact Nat.lt_of_le_of_lt List.count_le_length (by decide)
  obtain ⟨entries, callables, frees⟩ :=
    lifetimes_of_run .standard false [] squaredHypotenuse [4] freeOneOfTwo few
  have first : (s.callables[0]?.join).map (fun c => c.entry.isLive (s.engine? c.entry.engine)) =
      some false := by decide +kernel
  have second : (s.callables[1]?.join).map (fun c => c.entry.isLive (s.engine? c.entry.engine)) =
      some true := by decide +kernel
  obtain ⟨c, c_there, dead⟩ := Option.map_eq_some_iff.mp first
  obtain ⟨d, d_there, live⟩ := Option.map_eq_some_iff.mp second
  rw [Option.join_eq_some_iff] at c_there d_there
  have held {j : Nat} {c : Callable} (there : s.callables[j]? = some (some c)) :
      c.entry.Lifetime s past :=
    happened ▸ entries c.entry (.inr ⟨c, List.mem_of_getElem? there, rfl⟩)
  have made {k : Nat} (below : k < 2) : k < s.engines.length :=
    Nat.lt_of_lt_of_eq below (by decide +kernel)
  refine ⟨happened, c, d, c_there, d_there, held c_there, dead, held d_there, live,
    (callables 0 c c_there dead).2, (frees 0).2.trans ?_, (frees 1).2.trans ?_⟩
  all_goals
    rw [happened, if_pos ⟨made (by decide), by decide⟩]
    rfl

end ExprCompiler
