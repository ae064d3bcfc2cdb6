import ExprCompiler.Proofs.Compilation
import ExprCompiler.Session.Step
import Mathlib.Logic.Relation

/-! All that an answered command can do to a session. `Session.Effect` has one
constructor for each way in which a session changes; that commands do nothing
else is shown once, and invariants of runs are shown by cases on it. -/
namespace ExprCompiler

namespace SymbolTable

inductive Change (t : SymbolTable) : SymbolTable → Prop
  | register (i : Intrinsic) : Change t (t.register i).1
  | clear : Change t t.clear

/-- What a table becomes by registering and clearing. -/
def Becomes : SymbolTable → SymbolTable → Prop := Relation.ReflTransGen Change

theorem becomes_register (t : SymbolTable) (i : Intrinsic) : t.Becomes (t.register i).1 :=
  .single (.register i)

theorem becomes_registerAll (t : SymbolTable) (is : List Intrinsic) :
    t.Becomes (t.registerAll is).1 := by
  induction is generalizing t with
  | nil => exact .refl
  | cons i is ih =>
    have becomes := t.becomes_register i
    rw [registerAll]
    split
    · exact ih t
    · split
      · next t' _ tried =>
        rw [tried] at becomes
        exact becomes
      · next t' _ tried =>
        rw [tried] at becomes
        exact becomes.trans (ih t')

theorem becomes_registerCollected (t : SymbolTable) (name : String) :
    t.Becomes (t.registerCollected name).1 := by
  unfold registerCollected
  split
  · next r _ => exact t.becomes_register r.intrinsic
  · exact .refl

theorem becomes_registerSeveral (t : SymbolTable) (names : List String) :
    t.Becomes (t.registerSeveral names).1 := by
  induction names generalizing t with
  | nil => exact .refl
  | cons name names ih =>
    have becomes := t.becomes_registerCollected name
    rw [registerSeveral]
    split
    · next t' _ _ tried =>
      rw [tried] at becomes
      exact becomes
    · next t' _ _ tried =>
      rw [tried] at becomes
      exact becomes.trans (ih t')

end SymbolTable

inductive Event where
  | compiled (engine unit : Nat)
  | freed (engine : Nat)
  | dropped (engine : Nat)
deriving DecidableEq

def Event.engine : Event → Nat
  | compiled k _ | freed k | dropped k => k

def Answer.compiled? : Except Error Answer → Option Nat
  | .ok (.entry _ x _) => some x.unit
  | .ok (.callable _ c) => some c.entry.unit
  | _ => none

def Command.event? (c : Command) (o : Outcome) : Option Event :=
  match c with
  | .freeMemory k => some (.freed k)
  | .dropEngine k => some (.dropped k)
  | .compile k _ | .compileExpr k _ _ _ | .compileInferred k _ _ =>
    (Answer.compiled? o.result).map (.compiled k)
  | _ => none

/-- The unit that a command changes behind the back of lowering and compiling. -/
def Command.touched? (c : Command) (s : Session) : Option Nat :=
  match c with
  | .edit j _ => ((s.units[j]?).join).map (·.id)
  | .tamper j _ => ((s.entries[j]?).join).map (·.unit)
  | .tamperCallable j _ => ((s.callables[j]?).join).map (·.entry.unit)
  | _ => none

theorem Graph.id_of_lower {g : Graph} {root : Nat} {folded : Bool} {t : SymbolTable} {id : Nat}
    {params : List Variable} {strategy : Strategy} {u : CompilationUnit}
    (h : (g.lower root folded t id params strategy).result = .ok u) : u.id = id := by
  obtain ⟨used, l, -, -, -, rfl⟩ := lower_cases h
  exact (l.fields_finish id params.length _ used).1

theorem Callable.entry_of_ofEntry {x : Entry} {arity : Nat} {c : Callable}
    (h : ofEntry x arity = .ok c) : c.entry = x := by
  unfold ofEntry at h
  split at h
  · cases h
    rfl
  · cases h

theorem Traced.eq_of_result {r : σ × Traced α} {x : Except Error α} (h : r.2.result = x) :
    r = (r.1, ⟨r.2.notes, x⟩) := by
  rw [← h]

namespace Engine

section CompileExpr

variable {e e' : Engine} {self : Nat} {g : Graph} {root : Nat} {folded : Bool} {id : Nat}
  {params : List Variable} {strategy : Strategy} {u : CompilationUnit} {c : Callable} {err : Error}

theorem install_cases (h : e.install self u params = (e', .ok c)) :
    ∃ v x, u.verify = .ok v ∧ e.compile self v = (e', .ok x) ∧ c = ⟨x, params⟩ := by
  unfold install at h
  split at h
  · cases h
  · next v verified =>
    rw [Prod.mk.injEq] at h
    obtain ⟨rfl, made⟩ := h
    cases compiled : (e.compile self v).2 with
    | error err => simp [compiled, bind, Except.bind] at made
    | ok x =>
      simp only [compiled, bind, Except.bind] at made
      split at made
      · cases made
      · next c' wrapped =>
        cases made
        refine ⟨v, x, verified, Prod.ext rfl compiled, ?_⟩
        rw [Callable.entry_of_ofEntry wrapped]

theorem compileExpr_cases {notes : List Note}
    (h : e.compileExpr self g root folded id params strategy = (e', ⟨notes, .ok c⟩)) :
    ∃ u v x, (g.lower root folded e.symbols id params strategy).result = .ok u ∧
      u.verify = .ok v ∧ e.compile self v = (e', .ok x) ∧ c = ⟨x, params⟩ := by
  unfold compileExpr at h
  simp only at h
  split at h
  · cases h
  · next u lowered =>
    rw [Prod.mk.injEq, Traced.mk.injEq] at h
    obtain ⟨v, x, verified, compiled, made⟩ := install_cases (Prod.ext h.1 h.2.2)
    exact ⟨u, v, x, lowered, verified, compiled, made⟩

/-- A unit with the right number of parameters can be wrapped once it is compiled, so a
failure leaves no code behind. -/
theorem fst_install_of_error (counted : u.arity = params.length)
    (failed : (e.install self u params).2 = .error err) : (e.install self u params).1 = e := by
  unfold install at failed ⊢
  split at failed
  · rfl
  · next v verified =>
    show (e.compile self v).1 = e
    cases compiled : (e.compile self v).2 with
    | error err' => exact fst_compile_of_error compiled
    | ok x =>
      obtain ⟨functions, -, -, rfl⟩ := compile_cases (Prod.ext rfl compiled)
      -- The code is in the engine by now, so wrapping the entry must not fail.
      have arity : v.unit.arity = params.length := by
        rw [CompilationUnit.unit_of_verify verified, counted]
      simp [compiled, bind, Except.bind, Callable.ofEntry, arity, pure, Except.pure] at failed

theorem fst_compileExpr_of_error
    (failed : (e.compileExpr self g root folded id params strategy).2.result = .error err) :
    (e.compileExpr self g root folded id params strategy).1 = e := by
  unfold compileExpr at failed ⊢
  simp only at failed ⊢
  split at failed
  · rfl
  · next u lowered =>
    obtain ⟨used, l, -, -, -, rfl⟩ := Graph.lower_cases lowered
    exact fst_install_of_error (l.fields_finish id params.length _ used).2.1 failed

end CompileExpr

end Engine

namespace Session

/-- A session and what it becomes by an answered command, with what happened to
the code of an engine and the unit that was touched. -/
inductive Effect (s : Session) : Option Event → Option Nat → Session → Prop
  | still : Effect s none none s
  | fold (graph : Graph) (nodes : List Nat) : Effect s none none { s with graph, nodes }
  | buffers (buffers : List ArgBuffer) : Effect s none none { s with buffers }
  | newTable (host : Bool) : Effect s none none
      { s with tables := s.tables ++ [.new s.platform host] }
  | symbols {r : TableRef} {t t' : SymbolTable} (there : s.table? r = some t)
      (becomes : t.Becomes t') : Effect s none none (s.setTable r t')
  | newEngine (config : Config) :
      Effect s none none { s with engines := s.engines ++ [some (.new s.platform config)] }
  | free {k : Nat} {e : Engine} (there : s.engine? k = some e) :
      Effect s (some (.freed k)) none (s.setEngine k (some e.freeMemory))
  | drop {k : Nat} {e : Engine} (there : s.engine? k = some e) :
      Effect s (some (.dropped k)) none (s.setEngine k none)
  | lower {i : Nat} {t : SymbolTable} {vs : List Variable} {strategy : Strategy}
      {u : CompilationUnit}
      (lowered : (s.graph.lower i s.folded t s.nextUnit vs strategy).result = .ok u) :
      Effect s none none { s with units := s.units ++ [some u], nextUnit := s.nextUnit + 1 }
  | edit {j : Nat} {u : CompilationUnit} (there : s.units[j]?.join = some u) (change : Edit) :
      Effect s none (some u.id) { s with units := s.units.set j (some (u.edit change)) }
  | verify {j : Nat} {u : CompilationUnit} {v : VerifiedUnit} (there : s.units[j]?.join = some u)
      (verified : u.verify = .ok v) :
      Effect s none none
        { s with units := s.units.set j none, verified := s.verified ++ [some v] }
  | refuse (j : Nat) : Effect s none none { s with units := s.units.set j none }
  | compile {j k : Nat} {e e' : Engine} {v : VerifiedUnit} {x : Entry}
      (engine : s.engine? k = some e) (there : s.verified[j]?.join = some v)
      (compiled : e.compile k v = (e', .ok x)) :
      Effect s (some (.compiled k v.unit.id)) none
        { s.setEngine k (some e') with
          verified := s.verified.set j none
          entries := s.entries ++ [some x] }
  | waste (j : Nat) : Effect s none none { s with verified := s.verified.set j none }
  | wrap {j arity : Nat} {x : Entry} {c : Callable} (there : s.entries[j]?.join = some x)
      (wrapped : Callable.ofEntry x arity = .ok c) :
      Effect s none none
        { s with entries := s.entries.set j none, callables := s.callables ++ [some c] }
  | unwrapped (j : Nat) : Effect s none none { s with entries := s.entries.set j none }
  | compileExpr {i k : Nat} {e e' : Engine} {vs : List Variable} {strategy : Strategy}
      {notes : List Note} {c : Callable} (engine : s.engine? k = some e)
      (compiled : e.compileExpr k s.graph i s.folded s.nextUnit vs strategy =
        (e', ⟨notes, .ok c⟩)) :
      Effect s (some (.compiled k s.nextUnit)) none
        { s.setEngine k (some e') with
          callables := s.callables ++ [some c]
          nextUnit := s.nextUnit + 1 }
  | tamper {j : Nat} {x : Entry} (there : s.entries[j]?.join = some x) (change : Tampering) :
      Effect s none (some x.unit) { s with entries := s.entries.set j (some (x.tamper change)) }
  | tamperCallable {j : Nat} {c : Callable} (there : s.callables[j]?.join = some c)
      (change : Tampering) :
      Effect s none (some c.entry.unit)
        { s with callables := s.callables.set j (some (c.tamper change)) }
  | invoke {j : Nat} {c : Callable} (there : s.callables[j]?.join = some c) (args : List Double) :
      Effect s none none
        { s with
          callables :=
            s.callables.set j (some (c.invoke (s.engine? c.entry.engine) args).callable) }
  | forget (j : Nat) : Effect s none none { s with callables := s.callables.set j none }

variable {s : Session} {o : Outcome}

theorem set_of_join {l : List (Option α)} {j : Nat} {a : α} (there : l[j]?.join = some a) :
    l.set j (some a) = l := by
  obtain ⟨bound, same⟩ := List.getElem?_eq_some_iff.mp (Option.join_eq_some_iff.mp there)
  rw [← same]
  exact List.set_getElem_self bound

theorem setEngine_self {k : Nat} {e : Engine} (there : s.engine? k = some e) :
    s.setEngine k (some e) = s := by
  rw [setEngine, set_of_join there]

theorem askGraph_session {node : Option Nat} {f : Nat → Answer} (h : s.askGraph node f = some o) :
    o.session = s := by
  obtain ⟨i, -, rfl⟩ := Option.map_eq_some_iff.mp h
  rfl

theorem askCallable_session {j : Nat} {f : Callable → Except Error Answer}
    (h : s.askCallable j f = some o) : o.session = s := by
  obtain ⟨c, -, rfl⟩ := Option.map_eq_some_iff.mp h
  rfl

theorem lower_effect {k : Nat} {node : Option Nat} {params : List Nat} {strategy : Strategy}
    (h : s.lower k node params strategy = some o) : s.Effect none none o.session := by
  unfold lower at h
  simp only [Option.bind_eq_bind, Option.bind_eq_some_iff] at h
  obtain ⟨e, -, i, -, vs, -, h⟩ := h
  split at h
  · next u lowered =>
    cases h
    exact .lower lowered
  · cases h
    exact .still

theorem verify_effect {j : Nat} (h : s.verify j = some o) : s.Effect none none o.session := by
  unfold verify at h
  simp only [Option.bind_eq_bind, Option.bind_eq_some_iff] at h
  obtain ⟨u, there, h⟩ := h
  split at h
  · next v verified =>
    cases h
    exact .verify there verified
  · cases h
    exact .refuse j

theorem compile_effect {k j : Nat} (h : s.compile k j = some o) :
    s.Effect ((Answer.compiled? o.result).map (.compiled k)) none o.session := by
  unfold compile at h
  simp only [Option.bind_eq_bind, Option.bind_eq_some_iff] at h
  obtain ⟨e, engine, v, there, h⟩ := h
  split at h
  · next x linked =>
    cases h
    have compiled : e.compile k v = (_, .ok x) := Prod.ext rfl linked
    have unit : x.unit = v.unit.id := by
      obtain ⟨functions, -, -, rfl⟩ := Engine.compile_cases compiled
      rfl
    simp only [Answer.compiled?, Option.map_some, unit]
    exact .compile engine there compiled
  · next err failed =>
    cases h
    rw [Engine.fst_compile_of_error failed, setEngine_self engine]
    exact .waste j

theorem wrap_effect {j arity : Nat} (h : s.wrap j arity = some o) :
    s.Effect none none o.session := by
  unfold wrap at h
  simp only [Option.bind_eq_bind, Option.bind_eq_some_iff] at h
  obtain ⟨x, there, h⟩ := h
  split at h
  · next c wrapped =>
    cases h
    exact .wrap there wrapped
  · cases h
    exact .unwrapped j

theorem compileExpr_effect {k i : Nat} {vs : List Variable} {strategy : Strategy}
    (h : s.compileExpr k i vs strategy = some o) :
    s.Effect ((Answer.compiled? o.result).map (.compiled k)) none o.session := by
  unfold compileExpr at h
  simp only [Option.bind_eq_bind, Option.bind_eq_some_iff] at h
  obtain ⟨e, engine, h⟩ := h
  split at h
  · next c made =>
    cases h
    have compiled := Traced.eq_of_result made
    obtain ⟨u, v, x, lowered, verified, linked, rfl⟩ := Engine.compileExpr_cases compiled
    have unit : x.unit = s.nextUnit := by
      obtain ⟨functions, -, -, rfl⟩ := Engine.compile_cases linked
      rw [CompilationUnit.unit_of_verify verified, Graph.id_of_lower lowered]
    simp only [Answer.compiled?, Option.map_some, unit]
    exact .compileExpr engine compiled
  · next err failed =>
    cases h
    rw [Engine.fst_compileExpr_of_error failed, setEngine_self engine]
    exact .still

theorem step_effect {c : Command} (h : s.step c = some o) :
    s.Effect (c.event? o) (c.touched? s) o.session := by
  have unchanged (same : o.session = s) : s.Effect none none o.session := same ▸ .still
  cases c with
  | lower k node params strategy => exact lower_effect h
  | verify j => exact verify_effect h
  | compile k j => exact compile_effect h
  | wrap j arity => exact wrap_effect h
  | compileExpr k node params strategy =>
    simp only [step, Option.bind_eq_bind, Option.bind_eq_some_iff] at h
    obtain ⟨i, -, vs, -, h⟩ := h
    exact compileExpr_effect h
  | compileInferred k node strategy =>
    simp only [step, Option.bind_eq_bind, Option.bind_eq_some_iff] at h
    obtain ⟨i, -, h⟩ := h
    exact compileExpr_effect h
  | freeMemory k =>
    obtain ⟨e, there, rfl⟩ := Option.map_eq_some_iff.mp h
    exact .free there
  | dropEngine k =>
    obtain ⟨e, there, rfl⟩ := Option.map_eq_some_iff.mp h
    exact .drop there
  | newEngine config =>
    cases h
    exact .newEngine config
  | dropCallable j =>
    obtain ⟨c, -, rfl⟩ := Option.map_eq_some_iff.mp h
    exact .forget j
  | invoke j args =>
    obtain ⟨c, there, rfl⟩ := Option.map_eq_some_iff.mp h
    exact .invoke there args
  | edit j change =>
    obtain ⟨u, there, rfl⟩ := Option.map_eq_some_iff.mp h
    rw [Command.touched?, there]
    exact .edit there change
  | tamper j change =>
    obtain ⟨x, there, rfl⟩ := Option.map_eq_some_iff.mp h
    rw [Command.touched?, there]
    exact .tamper there change
  | tamperCallable j change =>
    obtain ⟨c, there, rfl⟩ := Option.map_eq_some_iff.mp h
    rw [Command.touched?, there]
    exact .tamperCallable there change
  | register r i =>
    obtain ⟨t, there, rfl⟩ := Option.map_eq_some_iff.mp h
    exact .symbols there (t.becomes_register i)
  | registerCollected r name =>
    obtain ⟨t, there, rfl⟩ := Option.map_eq_some_iff.mp h
    exact .symbols there (t.becomes_registerCollected name)
  | registerSeveral r names =>
    obtain ⟨t, there, rfl⟩ := Option.map_eq_some_iff.mp h
    exact .symbols there (t.becomes_registerSeveral names)
  | registerAllCollected r =>
    obtain ⟨t, there, rfl⟩ := Option.map_eq_some_iff.mp h
    exact .symbols there (t.becomes_registerAll _)
  | clearRegistered r =>
    obtain ⟨t, there, rfl⟩ := Option.map_eq_some_iff.mp h
    exact .symbols there (.single .clear)
  | fold node =>
    obtain ⟨i, -, rfl⟩ := Option.map_eq_some_iff.mp h
    exact .fold _ _
  | newTable host =>
    cases h
    exact .newTable host
  | newBuffer size =>
    cases h
    exact .buffers _
  | writeBuffer j args =>
    obtain ⟨b, -, rfl⟩ := Option.map_eq_some_iff.mp h
    exact .buffers _
  | known r name | resolve r name arity | function j name =>
    obtain ⟨t, -, rfl⟩ := Option.map_eq_some_iff.mp h
    exact unchanged rfl
  | allVariables | arithmetic op x y | signature arity =>
    cases h
    exact unchanged rfl
  | outline node | display node | dag node | vars node => exact unchanged (askGraph_session h)
  | isLive j | address j name | buffer j => exact unchanged (askCallable_session h)
  | sameNode a b | sameVariable a b | eval node params args =>
    simp only [step, Option.bind_eq_bind, Option.bind_eq_some_iff] at h
    obtain ⟨i, -, j, -, h⟩ := h
    cases h
    exact unchanged rfl
  | evaluate k node params args =>
    simp only [step, Option.bind_eq_bind, Option.bind_eq_some_iff] at h
    obtain ⟨e, -, i, -, vs, -, h⟩ := h
    cases h
    exact unchanged rfl

end Session

def Session.past (s : Session) : List Command → List Event
  | [] => []
  | c :: cs =>
    match s.step c with
    | some o => o.session.past cs ++ (c.event? o).toList
    | none => s.past cs

def Session.touched (s : Session) : List Command → List Nat
  | [] => []
  | c :: cs =>
    match s.step c with
    | some o => o.session.touched cs ++ (c.touched? s).toList
    | none => s.touched cs

theorem Session.run_append (s : Session) (cs ds : List Command) :
    (s.run (cs ++ ds)).1 = ((s.run cs).1.run ds).1 := by
  induction cs generalizing s with
  | nil => rfl
  | cons c cs ih => exact ih _

theorem Session.past_append (s : Session) (cs ds : List Command) :
    s.past (cs ++ ds) = (s.run cs).1.past ds ++ s.past cs := by
  induction cs generalizing s with
  | nil => simp [run, past]
  | cons c cs ih =>
    rw [List.cons_append, past, past, run]
    cases s.step c with
    | none => exact ih s
    | some o => simp [ih]

/-- What every answered command of a run keeps holds after it. -/
theorem Session.run_induction_step {P : List Event → List Nat → Session → Prop}
    (cs : List Command)
    (next : ∀ c ∈ cs, ∀ past touched s o, P past touched s → s.step c = some o →
      P ((c.event? o).toList ++ past) ((c.touched? s).toList ++ touched) o.session)
    (past : List Event) (touched : List Nat) {s : Session} (first : P past touched s) :
    P (s.past cs ++ past) (s.touched cs ++ touched) (s.run cs).1 := by
  induction cs generalizing s past touched with
  | nil => exact first
  | cons c cs ih =>
    have later := ih fun d hd => next d (List.mem_cons_of_mem c hd)
    cases answered : s.step c with
    | none =>
      simp only [Session.past, Session.touched, run, answered, Option.map_none, Option.getD_none]
      exact later _ _ first
    | some o =>
      simp only [Session.past, Session.touched, run, answered, Option.map_some, Option.getD_some,
        List.append_assoc]
      exact later _ _ (next c List.mem_cons_self _ _ _ _ first answered)

theorem Session.run_induction {P : List Event → List Nat → Session → Prop}
    (next : ∀ past touched s event touch s', P past touched s → s.Effect event touch s' →
      P (event.toList ++ past) (touch.toList ++ touched) s')
    (past : List Event) (touched : List Nat) {s : Session} (first : P past touched s)
    (cs : List Command) : P (s.past cs ++ past) (s.touched cs ++ touched) (s.run cs).1 := by
  refine run_induction_step cs (fun c _ past touched s o before answered => ?_) past touched first
  exact next _ _ _ _ _ _ before (step_effect answered)

inductive Engine.Turns (k : Nat) : Option Event → Option Engine → Option Engine → Prop
  | same {event : Option Event} {e : Option Engine}
      (elsewhere : ∀ x, event = some x → x.engine ≠ k) : Turns k event e e
  | created (platform : Platform) (config : Config) :
      Turns k none none (some (.new platform config))
  | symbols {e : Engine} {t : SymbolTable} (becomes : e.symbols.Becomes t) :
      Turns k none (some e) (some { e with symbols := t })
  | freed {e : Engine} : Turns k (some (.freed k)) (some e) (some e.freeMemory)
  | dropped {e : Engine} : Turns k (some (.dropped k)) (some e) none
  | compiled {e e' : Engine} {v : VerifiedUnit} {x : Entry}
      (compiled : e.compile k v = (e', .ok x)) :
      Turns k (some (.compiled k v.unit.id)) (some e) (some e')

namespace Session

variable {s s' : Session} {event : Option Event} {touched : Option Nat}

theorem engine?_setEngine {j k : Nat} {e : Engine} (there : s.engine? j = some e)
    (e' : Option Engine) :
    (s.setEngine j e').engine? k = if k = j then e' else s.engine? k := by
  have bound : j < s.engines.length := by
    rw [engine?, Option.join_eq_some_iff] at there
    exact (List.getElem?_eq_some_iff.mp there).1
  unfold engine? setEngine
  by_cases same : k = j
  · simp [same, bound]
  · simp [same, List.getElem?_set_ne (Ne.symm same)]

theorem turns_setEngine {j : Nat} {e : Engine} {o : Option Engine} (there : s.engine? j = some e)
    (named : ∀ x, event = some x → x.engine = j) (here : Engine.Turns j event (some e) o)
    (k : Nat) :
    Engine.Turns k event (s.engine? k) ((s.setEngine j o).engine? k) := by
  rw [engine?_setEngine there]
  split
  · next same =>
    rw [same, there]
    exact here
  · next ne => exact .same fun x happened same => ne (same.symm.trans (named x happened))

theorem Effect.turns (h : s.Effect event touched s') (k : Nat) :
    Engine.Turns k event (s.engine? k) (s'.engine? k) := by
  have quiet : ∀ x, (none : Option Event) = some x → x.engine ≠ k := by simp
  have named (y : Event) : ∀ x, some y = some x → x.engine = y.engine :=
    fun x same => congrArg Event.engine (Option.some.inj same).symm
  cases h with
  | still | fold _ _ | buffers _ | newTable _ | lower _ | edit _ _ | verify _ _ | refuse _ | waste _
  | wrap _ _ | unwrapped _ | tamper _ _ | tamperCallable _ _ | invoke _ _ | forget _ =>
    exact .same quiet
  | @symbols r t t' there becomes =>
    cases r with
    | table j => exact .same quiet
    | engine j =>
      obtain ⟨e, found, rfl⟩ := Option.map_eq_some_iff.mp there
      show Engine.Turns k none (s.engine? k) ((s.setEngine j _).engine? k)
      rw [found]
      exact turns_setEngine found (by simp) (.symbols becomes) k
  | newEngine config =>
    show Engine.Turns k none _ ((s.engines ++ [some (.new s.platform config)])[k]?).join
    rw [List.getElem?_append]
    split
    · exact .same quiet
    · next beyond =>
      have absent : s.engine? k = none := by
        rw [engine?, List.getElem?_eq_none (Nat.le_of_not_lt beyond)]
        rfl
      rw [absent, List.getElem?_singleton]
      split
      · exact .created s.platform config
      · exact .same quiet
  | @free j _ there => exact turns_setEngine there (named (.freed j)) .freed k
  | @drop j _ there => exact turns_setEngine there (named (.dropped j)) .dropped k
  | compile engine _ compiled => exact turns_setEngine engine (named _) (.compiled compiled) k
  | compileExpr engine compiled =>
    obtain ⟨u, v, x, lowered, verified, linked, rfl⟩ := Engine.compileExpr_cases compiled
    have unit : v.unit.id = s.nextUnit := by
      rw [CompilationUnit.unit_of_verify verified, Graph.id_of_lower lowered]
    rw [← unit]
    exact turns_setEngine engine (named _) (.compiled linked) k

/-- What a callable becomes by effects that touch nothing. -/
theorem Effect.used (h : s.Effect event none s') {j : Nat} {o : Option Callable}
    (there : s.callables[j]? = some o) :
    ∃ o', s'.callables[j]? = some o' ∧ ∀ c', o' = some c' → ∃ c, o = some c ∧ c.Used c' := by
  have bound := (List.getElem?_eq_some_iff.mp there).1
  have refl : ∀ c', o = some c' → ∃ c, o = some c ∧ c.Used c' :=
    fun c' same => ⟨c', same, .refl⟩
  cases h with
  | still | fold _ _ | buffers _ | newTable _ | newEngine _ | free _ | drop _ | lower _
  | verify _ _ | refuse _ | compile _ _ _ | waste _ | unwrapped _ => exact ⟨o, there, refl⟩
  | @symbols r t t' found _ => cases r <;> exact ⟨o, there, refl⟩
  | wrap _ _ | compileExpr _ _ => exact ⟨o, (List.getElem?_append_left bound).trans there, refl⟩
  | @invoke i d found args =>
    by_cases same : i = j
    · subst same
      rw [there] at found
      refine ⟨_, List.getElem?_set_self bound, fun c' made => ⟨d, found, ?_⟩⟩
      cases made
      exact .invoke .refl _ args
    · exact ⟨o, by simp [List.getElem?_set_ne same, there], refl⟩
  | forget i =>
    by_cases same : i = j
    · subst same
      exact ⟨none, by simp [bound], by simp⟩
    · exact ⟨o, by simp [List.getElem?_set_ne same, there], refl⟩

theorem used_step {q : Command} {o : Outcome} (answered : s.step q = some o) {j : Nat}
    (untampered : ∀ change, q ≠ .tamperCallable j change) {p : Option Callable}
    (there : s.callables[j]? = some p) :
    ∃ p', o.session.callables[j]? = some p' ∧ ∀ c', p' = some c' → ∃ c, p = some c ∧ c.Used c' := by
  have kept (same : o.session.callables[j]? = s.callables[j]?) : ∃ p',
      o.session.callables[j]? = some p' ∧ ∀ c', p' = some c' → ∃ c, p = some c ∧ c.Used c' :=
    ⟨p, same.trans there, fun c' here => ⟨c', here, .refl⟩⟩
  cases q with
  | edit k change | tamper k change =>
    obtain ⟨x, -, rfl⟩ := Option.map_eq_some_iff.mp answered
    exact kept rfl
  | tamperCallable k change =>
    obtain ⟨c, -, rfl⟩ := Option.map_eq_some_iff.mp answered
    have other : k ≠ j := fun same => untampered change (by rw [same])
    exact kept (List.getElem?_set_ne other)
  | _ => exact (step_effect answered).used there

end Session
end ExprCompiler
