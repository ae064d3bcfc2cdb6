import ExprCompiler.Proofs.SessionEffect

/-! What commands do to compiled code. Of a session only a view is kept: which
units wait, which code every engine holds, and to which code the entries belong.
`View.Moves` lists all that a command can do to it, and what holds over whole runs
is shown on the moves. -/
namespace ExprCompiler

section Place

variable {α : Type} {l : List (Option α)} {j : Nat} {a b : α}

theorem mem_of_getElem?_join (there : l[j]?.join = some a) : some a ∈ l :=
  List.mem_of_getElem? (Option.join_eq_some_iff.mp there)

theorem mem_of_mem_set_none (there : some a ∈ l.set j none) : some a ∈ l := by
  rcases List.mem_or_eq_of_mem_set there with there | same
  · exact there
  · cases same

theorem mem_or_eq_of_mem_set_some (there : some a ∈ l.set j (some b)) : some a ∈ l ∨ a = b :=
  (List.mem_or_eq_of_mem_set there).imp_right Option.some.inj

theorem mem_or_eq_of_mem_concat (there : some a ∈ l ++ [some b]) : some a ∈ l ∨ a = b := by
  simpa using there

end Place

structure Tag where
  unit : Nat
  engine : Nat
  generation : UInt64
deriving DecidableEq

def Entry.tag (x : Entry) : Tag := ⟨x.unit, x.engine, x.generation⟩

structure Holding where
  generation : UInt64
  units : List Nat
deriving DecidableEq

def Engine.holding (e : Engine) : Holding := ⟨e.generation, e.modules.map (·.unit)⟩

structure View where
  engines : List (Option Holding)
  units : List (Option Nat)
  verified : List (Option Nat)
  entries : List (Option Tag)
  callables : List (Option Tag)
  nextUnit : Nat

def Session.view (s : Session) : View where
  engines := s.engines.map (·.map Engine.holding)
  units := s.units.map (·.map (·.id))
  verified := s.verified.map (·.map (·.unit.id))
  entries := s.entries.map (·.map Entry.tag)
  callables := s.callables.map (·.map (·.entry.tag))
  nextUnit := s.nextUnit

/-- All that a command can do to the view of a session. -/
inductive View.Moves (v : View) : Option Event → View → Prop
  | still : Moves v none v
  | lower :
      Moves v none { v with units := v.units ++ [some v.nextUnit], nextUnit := v.nextUnit + 1 }
  | verify {j u : Nat} (there : v.units[j]? = some (some u)) :
      Moves v none { v with units := v.units.set j none, verified := v.verified ++ [some u] }
  | refuse (j : Nat) : Moves v none { v with units := v.units.set j none }
  | waste (j : Nat) : Moves v none { v with verified := v.verified.set j none }
  | wrap {j : Nat} {x : Tag} (there : v.entries[j]? = some (some x)) :
      Moves v none { v with entries := v.entries.set j none, callables := v.callables ++ [some x] }
  | unwrapped (j : Nat) : Moves v none { v with entries := v.entries.set j none }
  | forget (j : Nat) : Moves v none { v with callables := v.callables.set j none }
  | create : Moves v none { v with engines := v.engines ++ [some ⟨0, []⟩] }
  | free {k : Nat} {h : Holding} (there : v.engines[k]? = some (some h)) :
      Moves v (some (.freed k))
        { v with engines := v.engines.set k (some ⟨h.generation + 1, []⟩) }
  | drop {k : Nat} {h : Holding} (there : v.engines[k]? = some (some h)) :
      Moves v (some (.dropped k)) { v with engines := v.engines.set k none }
  | compile {j k u : Nat} {h : Holding} (there : v.engines[k]? = some (some h))
      (ready : v.verified[j]? = some (some u)) :
      Moves v (some (.compiled k u))
        { v with
          engines := v.engines.set k (some ⟨h.generation, u :: h.units⟩)
          verified := v.verified.set j none
          entries := v.entries ++ [some ⟨u, k, h.generation⟩] }
  | compileExpr {k : Nat} {h : Holding} (there : v.engines[k]? = some (some h)) :
      Moves v (some (.compiled k v.nextUnit))
        { v with
          engines := v.engines.set k (some ⟨h.generation, v.nextUnit :: h.units⟩)
          callables := v.callables ++ [some ⟨v.nextUnit, k, h.generation⟩]
          nextUnit := v.nextUnit + 1 }

theorem View.Moves.of_eq {v w w' : View} {x : Option Event} (moves : v.Moves x w) (same : w' = w) :
    v.Moves x w' := same ▸ moves

theorem CompilationUnit.id_edit (u : CompilationUnit) (change : Edit) :
    (u.edit change).id = u.id := by
  cases change <;> rfl

theorem Entry.tag_tamper (x : Entry) (change : Tampering) : (x.tamper change).tag = x.tag := by
  cases change <;> rfl

namespace Engine

variable {e e' : Engine} {self : Nat}

theorem holding_of_compile {v : VerifiedUnit} {x : Entry} (h : e.compile self v = (e', .ok x)) :
    e'.holding = ⟨e.holding.generation, v.unit.id :: e.holding.units⟩ ∧
      x.tag = ⟨v.unit.id, self, e.holding.generation⟩ := by
  obtain ⟨functions, -, rfl, rfl⟩ := compile_cases h
  exact ⟨rfl, rfl⟩

theorem holding_of_compileExpr {g : Graph} {root : Nat} {folded : Bool} {id : Nat}
    {params : List Variable} {strategy : Strategy} {notes : List Note} {c : Callable}
    (h : e.compileExpr self g root folded id params strategy = (e', ⟨notes, .ok c⟩)) :
    e'.holding = ⟨e.holding.generation, id :: e.holding.units⟩ ∧
      c.entry.tag = ⟨id, self, e.holding.generation⟩ := by
  obtain ⟨u, v, x, lowered, verified, compiled, rfl⟩ := compileExpr_cases h
  have named : v.unit.id = id := by
    rw [CompilationUnit.unit_of_verify verified, Graph.id_of_lower lowered]
  rw [← named]
  exact holding_of_compile compiled

end Engine

namespace Session

variable {s : Session}

theorem view_engine {k : Nat} {e : Engine} (h : s.engine? k = some e) :
    s.view.engines[k]? = some (some e.holding) := by
  have there : s.engines[k]? = some (some e) := Option.join_eq_some_iff.mp h
  simp [view, there]

theorem view_setEngine (k : Nat) (e : Option Engine) :
    (s.setEngine k e).view =
      { s.view with engines := s.view.engines.set k (e.map Engine.holding) } := by
  simp [view, setEngine, List.map_set]

theorem set_getElem? {l : List α} {k : Nat} {a : α} (h : ∀ b, l[k]? = some b → b = a) :
    l.set k a = l := by
  by_cases bound : k < l.length
  · rw [← h _ (List.getElem?_eq_getElem bound)]
    exact List.set_getElem_self bound
  · exact List.set_eq_of_length_le (Nat.le_of_not_lt bound)

theorem map_set_of_eq {l : List (Option α)} {f : α → β} {j : Nat} {a a' : α}
    (there : l[j]?.join = some a) (same : f a' = f a) :
    (l.set j (some a')).map (·.map f) = l.map (·.map f) := by
  rw [Option.join_eq_some_iff] at there
  rw [List.map_set]
  apply set_getElem?
  simp [there, same]

theorem view_setTable (r : TableRef) (t : SymbolTable) : (s.setTable r t).view = s.view := by
  cases r with
  | table k => rfl
  | engine k =>
    show (s.setEngine k _).view = s.view
    rw [view_setEngine, set_getElem?]
    intro b there
    simp only [view, List.getElem?_map, Option.map_eq_some_iff] at there
    obtain ⟨o, there, rfl⟩ := there
    have found : s.engine? k = o := by simp [engine?, there]
    rw [found]
    cases o with
    | none => rfl
    | some e => rfl

theorem view_at {l : List (Option α)} {f : α → β} {j : Nat} {a : α} (there : l[j]?.join = some a) :
    (l.map (·.map f))[j]? = some (some (f a)) := by
  rw [Option.join_eq_some_iff] at there
  simp [there]

theorem Effect.moves {s' : Session} {event : Option Event} {touched : Option Nat}
    (h : s.Effect event touched s') : s.view.Moves event s'.view := by
  cases h with
  | still | fold _ _ | buffers _ | newTable _ => exact .still
  | symbols _ _ => exact View.Moves.still.of_eq (view_setTable _ _)
  | newEngine config => exact View.Moves.create.of_eq (by simp [view, Engine.holding, Engine.new])
  | free there => exact (View.Moves.free (view_engine there)).of_eq (by rw [view_setEngine]; rfl)
  | drop there => exact (View.Moves.drop (view_engine there)).of_eq (by rw [view_setEngine]; rfl)
  | lower lowered => exact View.Moves.lower.of_eq (by simp [view, Graph.id_of_lower lowered])
  | @edit j u there change =>
    refine View.Moves.still.of_eq ?_
    simp only [view]
    rw [map_set_of_eq there (u.id_edit change)]
  | verify there verified =>
    exact (View.Moves.verify (view_at there)).of_eq
      (by simp [view, List.map_set, CompilationUnit.unit_of_verify verified])
  | refuse j => exact (View.Moves.refuse j).of_eq (by simp [view, List.map_set])
  | compile engine there compiled =>
    obtain ⟨holds, tagged⟩ := Engine.holding_of_compile compiled
    refine (View.Moves.compile (view_engine engine) (view_at there)).of_eq ?_
    simp [view, setEngine, List.map_set, holds, tagged]
  | waste j => exact (View.Moves.waste j).of_eq (by simp [view, List.map_set])
  | wrap there wrapped =>
    exact (View.Moves.wrap (view_at there)).of_eq
      (by simp [view, List.map_set, Callable.entry_of_ofEntry wrapped])
  | unwrapped j => exact (View.Moves.unwrapped j).of_eq (by simp [view, List.map_set])
  | compileExpr engine compiled =>
    obtain ⟨holds, tagged⟩ := Engine.holding_of_compileExpr compiled
    refine (View.Moves.compileExpr (view_engine engine)).of_eq ?_
    simp [view, setEngine, List.map_set, holds, tagged]
  | @tamper j x there change =>
    refine View.Moves.still.of_eq ?_
    simp only [view]
    rw [map_set_of_eq there (x.tag_tamper change)]
  | @tamperCallable j c there change =>
    refine View.Moves.still.of_eq ?_
    simp only [view]
    rw [map_set_of_eq there (c.entry.tag_tamper change)]
  | @invoke j c there args =>
    have same : (c.invoke (s.engine? c.entry.engine) args).callable.entry.tag = c.entry.tag := by
      rw [(c.entry_invoke _ args).1]
      rfl
    refine View.Moves.still.of_eq ?_
    simp only [view]
    rw [map_set_of_eq there same]
  | forget j => exact (View.Moves.forget j).of_eq (by simp [view, List.map_set])

theorem step_moves {c : Command} {o : Outcome} (h : s.step c = some o) :
    s.view.Moves (c.event? o) o.session.view :=
  (step_effect h).moves

end Session
end ExprCompiler
