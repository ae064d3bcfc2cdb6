import ExprCompiler.Engine.Callable
import ExprCompiler.Proofs.LinkedCode
import ExprCompiler.Symbol.Library

/-! Compiled expressions return what evaluation returns. Between compiling and
calling, the engine may change its symbols and compile other units, and the
callable may have been called before; none of this changes what a call does. -/
namespace ExprCompiler

theorem Strategy.resolve_cases {s used : Strategy} {n : Nat} (h : s.resolve n = .ok used) :
    used = .positional ∧ n ≤ maxPositional ∨ used = .buffer := by
  cases s with
  | auto =>
    by_cases few : n ≤ maxPositional
    · exact .inl ⟨by simpa [resolve, few, eq_comm] using h, few⟩
    · exact .inr (by simpa [resolve, few, eq_comm] using h)
  | positional =>
    by_cases few : n ≤ maxPositional
    · exact .inl ⟨by simpa [resolve, few, eq_comm] using h, few⟩
    · simp [resolve, few] at h
  | buffer => exact .inr (by simpa [resolve, eq_comm] using h)

theorem Graph.lower_cases {g : Graph} {root : Nat} {folded : Bool} {t : SymbolTable} {id : Nat}
    {params : List Variable} {strategy : Strategy} {u : CompilationUnit}
    (h : (g.lower root folded t id params strategy).result = .ok u) :
    ∃ used s, strategy.resolve params.length = .ok used ∧ (params.map (·.id)).Nodup ∧
      foldUntil (Lowering.step (g.lowered root folded).1 t params) (.start params.length)
        ((g.lowered root folded).1.visits (g.lowered root folded).2) = (s, none) ∧
      u = s.finish id params.length (g.lowered root folded).2 used := by
  have accepted := (g.lower_ok_iff root folded t id).mp ⟨u, h⟩
  obtain ⟨used, resolved⟩ := Strategy.exists_resolve accepted.fits
  rw [g.lower_eq_walk root folded t id resolved accepted.distinct] at h
  refine ⟨used, ?_⟩
  split at h
  · next s walked => exact ⟨s, resolved, accepted.distinct, walked, (Except.ok.inj h).symm⟩
  · cases h

theorem CompilationUnit.unit_of_verify {u : CompilationUnit} {v : VerifiedUnit}
    (h : u.verify = .ok v) : v.unit = u := by
  unfold verify at h
  split at h
  · cases h
    rfl
  · cases h

theorem Lowering.fields_finish (s : Lowering) (id n root : Nat) (used : Strategy) :
    (s.finish id n root used).id = id ∧ (s.finish id n root used).arity = n ∧
      (s.finish id n root used).strategy = used := by
  cases used <;> exact ⟨rfl, rfl, rfl⟩

theorem Lowering.ownFunctions_finish {s : Lowering} {n : Nat} (tables : s.Agrees n) (id root : Nat)
    (used : Strategy) :
    Engine.ownFunctions (s.finish id n root used) =
      (calleeName, 0) ::
        if used = .buffer then [(callerName, s.imports.length + 1)] else [] := by
  have noneOwn (k : Nat) :
      ((s.imports.map fun p => Declaration.mk p.1 .imported (.f64 p.2)).zipIdx k).filterMap
        (fun p => if p.1.linkage = .own then some (p.1.name, p.2) else none) = [] := by
    rw [List.filterMap_eq_nil_iff]
    intro p hp
    obtain ⟨q, -, same⟩ := List.mem_map.mp (List.fst_mem_of_mem_zipIdx hp)
    simp [← same]
  rw [Engine.ownFunctions, declarations_finish tables, List.cons_append, List.zipIdx_cons,
    List.zipIdx_append, List.filterMap_cons, List.filterMap_append]
  simp only [if_true, noneOwn, List.nil_append, List.length_map]
  split
  · simp [Nat.add_comm]
  · rfl

namespace Engine

/-- What can happen to an engine that keeps the code of a unit. -/
inductive Keeps (unit : Nat) (e : Engine) : Engine → Prop
  | refl : Keeps unit e e
  | symbols {e' : Engine} (before : Keeps unit e e') (t : SymbolTable) :
      Keeps unit e { e' with symbols := t }
  | compile {e' : Engine} (before : Keeps unit e e') (self : Nat) (v : VerifiedUnit)
      (other : v.unit.id ≠ unit) : Keeps unit e (e'.compile self v).1

variable {e e' : Engine} {self : Nat} {v : VerifiedUnit} {entry : Entry} {err : Error}

/-- The engine changes only after the last thing that can fail. -/
theorem fst_compile_of_error (failed : (e.compile self v).2 = .error err) :
    (e.compile self v).1 = e := by
  unfold compile at failed ⊢
  split at failed
  · rfl
  · cases failed

theorem compile_cases (h : e.compile self v = (e', .ok entry)) :
    ∃ functions, v.unit.link e.symbols = .ok functions ∧
      e' = { e with modules := ⟨v.unit.id, functions⟩ :: e.modules } ∧
      entry = ⟨v.unit.id, self, e.generation, ownFunctions v.unit, v.unit.arity, v.unit.strategy,
        v.unit.buffer, v.unit.baked⟩ := by
  unfold compile at h
  split at h
  · cases h
  · next functions linked =>
    cases h
    exact ⟨functions, linked, rfl, rfl⟩

theorem Keeps.code_eq {unit : Nat} (h : Keeps unit e e') :
    e'.code unit = e.code unit ∧ e'.generation = e.generation := by
  induction h with
  | refl => exact ⟨rfl, rfl⟩
  | symbols _ t ih => exact ih
  | compile _ self v other ih =>
    unfold Engine.compile
    split
    · exact ih
    · refine ⟨?_, ih.2⟩
      rw [← ih.1]
      simp [code, other]

end Engine

namespace Callable

inductive Used (c : Callable) : Callable → Prop
  | refl : Used c c
  | invoke {c' : Callable} (before : Used c c') (owner : Option Engine) (args : List Double) :
      Used c (c'.invoke owner args).callable

variable {c : Callable} {owner : Option Engine} {args : List Double}

@[simp] theorem callable_enter (c : Callable) (code : List Function) (slots : List Double)
    (index : Nat) (args : List Double) : (c.enter code slots index args).callable = c := by
  unfold enter
  split <;> rfl

theorem callable_invokeBuffer (c : Callable) (owner : Option Engine) (args : List Double) :
    (c.invokeBuffer owner args).callable = c ∨
      ∃ buffer, c.entry.buffer = some buffer ∧
        (c.invokeBuffer owner args).callable = c.fill (buffer.write args) := by
  unfold invokeBuffer
  split
  · exact .inl rfl
  · split
    · exact .inl rfl
    · next buffer held =>
      split
      · exact .inl rfl
      · exact .inr ⟨buffer, held, callable_enter ..⟩

theorem callable_invokePositional (c : Callable) (owner : Option Engine) (args : List Double) :
    (c.invokePositional owner args).callable = c := by
  unfold invokePositional
  split
  · rfl
  · split
    · rfl
    · exact callable_enter ..

theorem entry_invoke (c : Callable) (owner : Option Engine) (args : List Double) :
    (c.invoke owner args).callable.entry =
        { c.entry with buffer := (c.invoke owner args).callable.entry.buffer } ∧
      (c.invoke owner args).callable.entry.buffer.map (·.size) = c.entry.buffer.map (·.size) := by
  unfold invoke
  split
  · exact ⟨rfl, rfl⟩
  · split
    · rcases c.callable_invokeBuffer owner args with same | ⟨buffer, held, same⟩
      · rw [same]
        exact ⟨rfl, rfl⟩
      · rw [same, held]
        exact ⟨rfl, congrArg some (buffer.size_write args)⟩
    · rw [callable_invokePositional]
      exact ⟨rfl, rfl⟩

theorem Used.entry_eq {c' : Callable} (h : Used c c') :
    c'.entry = { c.entry with buffer := c'.entry.buffer } ∧
      c'.entry.buffer.map (·.size) = c.entry.buffer.map (·.size) := by
  induction h with
  | refl => exact ⟨rfl, rfl⟩
  | @invoke c' _ owner args ih =>
    obtain ⟨same, size⟩ := c'.entry_invoke owner args
    refine ⟨?_, size.trans ih.2⟩
    rw [same, ih.1]

end Callable

theorem ArgBuffer.values_write {b : ArgBuffer} {args : List Double} (h : args.length = b.size) :
    (b.write args).values = args := by
  have full : b.values.drop args.length = [] := by
    rw [h]
    exact List.drop_length
  rw [write, full, ← h, List.take_length, List.append_nil]

theorem Entry.locate_eq {entry : Entry} {e : Engine} {name : String} {index : Nat}
    (live : e.generation = entry.generation) (found : entry.functions.lookup name = some index) :
    entry.locate (some e) name = .ok (e, index) := by
  simp [locate, live, found]

namespace Callable

variable {c : Callable} {e : Engine} {args : List Double} {x : Double} {calls : List Call}

theorem invoke_positional (counted : args.length = c.entry.arity)
    (strategy : c.entry.strategy = .positional) (few : args.length ≤ maxPositional)
    (live : e.generation = c.entry.generation)
    (found : c.entry.functions.lookup calleeName = some 0)
    (ran : Machine.run (e.code c.entry.unit) ((c.entry.buffer.map (·.values)).getD []) 0 args =
      .ok (x, calls)) :
    c.invoke (some e) args = ⟨c, calls, .ok x⟩ := by
  rw [invoke, if_neg (by simpa [arity] using counted), strategy]
  simp only [invokePositional, Entry.locate_eq live found, Nat.not_lt.mpr few, if_false, enter, ran]

theorem invoke_buffer {buffer : ArgBuffer} {index : Nat} (counted : args.length = c.entry.arity)
    (strategy : c.entry.strategy = .buffer) (live : e.generation = c.entry.generation)
    (found : c.entry.functions.lookup callerName = some index)
    (held : c.entry.buffer = some buffer) (size : args.length = buffer.size)
    (baked : c.entry.baked = some 0)
    (ran : Machine.run (e.code c.entry.unit) args index [] = .ok (x, calls)) :
    c.invoke (some e) args = ⟨c.fill (buffer.write args), calls, .ok x⟩ := by
  rw [invoke, if_neg (by simpa [arity] using counted), strategy]
  simp [invokeBuffer, Entry.locate_eq live found, held, baked, ArgBuffer.values_write size, enter,
    ran]

end Callable

/-- A compiled expression returns what evaluation returns under the symbols that
the engine had when it compiled, and makes the same calls. The symbols that it
was lowered under do not matter. -/
theorem Callable.invoke_eq_evaluate {g : Graph} {root : Nat} {folded : Bool} {t : SymbolTable}
    {id : Nat} {params : List Variable} {strategy : Strategy} {u : CompilationUnit}
    {v : VerifiedUnit} {e e' later : Engine} {self n : Nat} {entry : Entry} {c c' : Callable}
    {args : List Double} (few : params.length ≤ Machine.slotLimit)
    (lowered : (g.lower root folded t id params strategy).result = .ok u)
    (verified : u.verify = .ok v) (compiled : e.compile self v = (e', .ok entry))
    (wrapped : Callable.ofEntry entry n = .ok c) (kept : Engine.Keeps id e' later)
    (called : Callable.Used c c') (counted : args.length = n) :
    ∃ x, (c'.invoke (some later) args).result = .ok x ∧
      (g.lowered root folded).1.evaluate (g.lowered root folded).2 e.symbols params args =
        ((c'.invoke (some later) args).calls, .ok x) := by
  obtain ⟨used, s, resolved, distinct, walked, rfl⟩ := Graph.lower_cases lowered
  obtain ⟨functions, linked, rfl, rfl⟩ := Engine.compile_cases compiled
  rw [CompilationUnit.unit_of_verify verified] at linked kept wrapped
  have fields := s.fields_finish id params.length (g.lowered root folded).2 used
  have tables := Lowering.agrees_of_walk walked
  have loaded := Lowering.loaded_of_link tables linked
  unfold ofEntry at wrapped
  split at wrapped
  · next sameArity =>
    cases wrapped
    rw [← sameArity, fields.2.1] at counted
    obtain ⟨sameEntry, sameSize⟩ := called.entry_eq
    have code : later.code c'.entry.unit = functions := by
      rw [sameEntry, fields.1, kept.code_eq.1]
      simp [Engine.code, fields.1]
    have live : later.generation = c'.entry.generation := by
      rw [sameEntry, kept.code_eq.2]
    have arity : args.length = c'.entry.arity := by
      rw [sameEntry, fields.2.1, counted]
    have own := Lowering.ownFunctions_finish tables id (g.lowered root folded).2 used
    cases Strategy.resolve_cases resolved with
    | inl positional =>
      obtain ⟨rfl, eight⟩ := positional
      have found : c'.entry.functions.lookup calleeName = some 0 := by
        rw [sameEntry, own]
        rfl
      obtain ⟨x, calls, ran, evaluated⟩ := loaded.run_callee
        ((c'.entry.buffer.map (·.values)).getD []) rfl counted distinct walked
      rw [invoke_positional arity (by rw [sameEntry, fields.2.2]) (counted ▸ eight) live found
        (code ▸ ran)]
      exact ⟨x, rfl, evaluated⟩
    | inr buffered =>
      subst buffered
      have found : c'.entry.functions.lookup callerName = some (s.imports.length + 1) := by
        rw [sameEntry, own]
        rfl
      have size : c'.entry.buffer.map (·.size) = some params.length := by
        rw [sameSize]
        simp [Lowering.finish, ArgBuffer.new, ArgBuffer.size]
      obtain ⟨buffer, held, size⟩ := Option.map_eq_some_iff.mp size
      obtain ⟨x, calls, ran, evaluated⟩ := loaded.run_caller few rfl counted distinct walked
      rw [invoke_buffer arity (by rw [sameEntry, fields.2.2]) live found held
        (counted.trans size.symm) (by rw [sameEntry]; rfl) (code ▸ ran)]
      exact ⟨x, rfl, evaluated⟩
  · cases wrapped

theorem exists_of_isOk {r : Except ε α} (h : r.isOk = true) : ∃ a, r = .ok a := by
  cases r with
  | error err => cases h
  | ok a => exact ⟨a, rfl⟩

theorem exists_of_isOk_bind {r : Except ε α} {f : α → Except ε β} (h : (r >>= f).isOk = true) :
    ∃ a, r = .ok a ∧ (f a).isOk = true := by
  cases r with
  | error err => cases h
  | ok a => exact ⟨a, rfl, h⟩

def squaredHypotenuse : Graph :=
  ⟨#[.var ⟨0, "x"⟩, .var ⟨1, "y"⟩, .call "hypot" [0, 1], .binary .mul 2 2, .binary .sub 3 0],
    by decide⟩

theorem squaredHypotenuse_invoke_eq_evaluate :
    ∃ u v e' entry c x,
      (squaredHypotenuse.lower 4 true (.builtinsOnly .standard) 7 [⟨0, "x"⟩, ⟨1, "y"⟩]
        .buffer).result = .ok u ∧
      u.verify = .ok v ∧ (Engine.new .standard .default).compile 0 v = (e', .ok entry) ∧
      Callable.ofEntry entry 2 = .ok c ∧
      let first := c.invoke (some e') [1, 2]
      let second := first.callable.invoke
        (some { e' with symbols := .builtinsOnly .standard }) [3, 4]
      second.result = .ok x ∧
        (squaredHypotenuse.lowered 4 true).1.evaluate (squaredHypotenuse.lowered 4 true).2
          (.new .standard true) [⟨0, "x"⟩, ⟨1, "y"⟩] [3, 4] = (second.calls, .ok x) := by
  have chain : ((do
      let u ← (squaredHypotenuse.lower 4 true (.builtinsOnly .standard) 7
        [⟨0, "x"⟩, ⟨1, "y"⟩] .buffer).result
      let v ← u.verify
      let entry ← ((Engine.new .standard .default).compile 0 v).2
      Callable.ofEntry entry 2) : Except Error Callable).isOk = true := by decide +kernel
  obtain ⟨u, lowered, chain⟩ := exists_of_isOk_bind chain
  obtain ⟨v, verified, chain⟩ := exists_of_isOk_bind chain
  obtain ⟨entry, linked, chain⟩ := exists_of_isOk_bind chain
  obtain ⟨c, wrapped⟩ := exists_of_isOk chain
  have compiled : (Engine.new .standard .default).compile 0 v = (_, .ok entry) :=
    Prod.ext rfl linked
  have few : [Variable.mk 0 "x", Variable.mk 1 "y"].length ≤ Machine.slotLimit := by decide
  have two : [(3 : Double), 4].length = 2 := rfl
  obtain ⟨x, returned, evaluated⟩ := Callable.invoke_eq_evaluate few lowered verified compiled
    wrapped (.symbols .refl (.builtinsOnly .standard)) (.invoke .refl _ [1, 2]) two
  exact ⟨u, v, _, entry, c, x, lowered, verified, compiled, wrapped, returned, evaluated⟩

end ExprCompiler
