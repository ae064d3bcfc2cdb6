import ExprCompiler.Engine.Linking
import ExprCompiler.Proofs.Simulation

/-! Linked code of a lowered unit. What stands behind each declaration is known
from the unit alone, up to the functions that its imports resolve to; entering
the callee runs the emitted code, and entering the caller runs it on what the
buffer holds. -/
namespace ExprCompiler

theorem SymbolTable.resolveCall_of_resolve {t : SymbolTable} {name : String} {n : Nat}
    {f : Resolution} (h : t.resolve name n = .ok f) (one : 1 ≤ n) (two : n ≤ 2) :
    t.resolveCall name n = .ok f := by
  have expected : t.expectedArity name n = n := by
    unfold resolve at h
    unfold expectedArity known?
    cases built : t.platform.builtin? name with
    | some i =>
      by_cases fits : i.arity = n
      · exact fits
      · simp [built, fits] at h
    | none =>
      cases found : t.registered? name with
      | some i =>
        by_cases fits : i.arity = n
        · exact fits
        · simp [built, found, fits] at h
      | none =>
        show max 1 (min n 2) = n
        omega
  rw [resolveCall, expected, if_neg (by simp), h]

namespace CompilationUnit

variable {u : CompilationUnit} {t : SymbolTable} {functions : List Function}

theorem implementation_own {index m : Nat} {name : String} {body : Body}
    (found : u.bodies.lookup index = some body) :
    u.implementation t index ⟨name, .own, .f64 m⟩ = .ok (.code m body) := by
  simp [implementation, found, Signature.f64]

theorem implementation_imported (index m : Nat) (name : String) :
    u.implementation t index ⟨name, .imported, .f64 m⟩ =
      (t.resolve name m).map fun f => .native name m f.native := by
  simp [implementation, Signature.f64]

theorem getElem?_implementations {index : Nat} {ds : List Declaration}
    (h : u.implementations t index ds = .ok functions) (k : Nat) (d : Declaration)
    (declared : ds[k]? = some d) :
    ∃ f, u.implementation t (index + k) d = .ok f ∧ functions[k]? = some f := by
  induction ds generalizing index functions k with
  | nil => simp at declared
  | cons head ds ih =>
    rw [implementations] at h
    cases first : u.implementation t index head with
    | error e =>
      rw [first] at h
      cases h
    | ok f =>
      rw [first] at h
      cases rest : u.implementations t (index + 1) ds with
      | error e => simp [rest, bind, Except.bind] at h
      | ok fs =>
        simp only [rest, bind, Except.bind, pure, Except.pure, Except.ok.injEq] at h
        rw [← h]
        cases k with
        | zero =>
          cases declared
          exact ⟨f, first, rfl⟩
        | succ k =>
          obtain ⟨f', found, here⟩ := ih rest k declared
          exact ⟨f', by rw [← found, Nat.add_assoc, Nat.add_comm 1 k], here⟩

theorem implementations_of_link (h : u.link t = .ok functions) :
    u.implementations t 0 u.declarations = .ok functions := by
  unfold link at h
  cases found : u.implementations t 0 u.declarations with
  | error e => simp [found, bind, Except.bind] at h
  | ok fs =>
    simp only [found, bind, Except.bind] at h
    split at h
    · cases h
    · exact h

end CompilationUnit

/-- What stands behind the declarations of a lowered unit. -/
structure Loaded (functions : List Function) (t : SymbolTable) (s : Lowering) (n root : Nat)
    (used : Strategy) : Prop where
  callee : functions[0]? = some (.code n (s.callee n root))
  imports : ∀ (k : Nat) (name : String) (m : Nat), s.imports[k]? = some (name, m) →
    ∃ f, t.resolve name m = .ok f ∧ functions[k + 1]? = some (.native name m f.native)
  caller : used = .buffer → functions[s.imports.length + 1]? =
    some (.code 0 (Lowering.caller (s.imports.length + 1) n))

namespace Lowering

variable {s : Lowering} {id n root : Nat} {used : Strategy}

theorem references_callee (tables : s.Agrees n) :
    (s.callee n root).references = externs s.imports := tables.referred

theorem declarations_finish (tables : s.Agrees n) : (s.finish id n root used).declarations =
    ⟨calleeName, .own, .f64 n⟩ :: (s.imports.map fun p => ⟨p.1, .imported, .f64 p.2⟩) ++
      if used = .buffer then [⟨callerName, .own, .f64 0⟩] else [] := by
  cases used <;> simp [finish, tables.declared]

theorem declarations_import (tables : s.Agrees n) {k m : Nat} {name : String}
    (imported : s.imports[k]? = some (name, m)) :
    (s.finish id n root used).declarations[k + 1]? = some ⟨name, .imported, .f64 m⟩ := by
  have inside := (List.getElem?_eq_some_iff.mp imported).1
  rw [declarations_finish tables, List.cons_append, List.getElem?_cons_succ,
    List.getElem?_append_left (by simpa using inside), List.getElem?_map, imported]
  rfl

theorem declarations_callee (tables : s.Agrees n) :
    (s.finish id n root used).declarations[0]? = some ⟨calleeName, .own, .f64 n⟩ := by
  simp [declarations_finish tables]

theorem declarations_caller (tables : s.Agrees n) :
    (s.finish id n root .buffer).declarations[s.imports.length + 1]? =
      some ⟨callerName, .own, .f64 0⟩ := by
  simp [declarations_finish tables]

theorem bodies_finish (tables : s.Agrees n) : (s.finish id n root used).bodies =
    (0, s.callee n root) ::
      if used = .buffer then [(s.imports.length + 1, caller (s.imports.length + 1) n)] else [] := by
  cases used <;> simp [finish, tables.length_declarations]

theorem loaded_of_link (tables : s.Agrees n) {t : SymbolTable} {functions : List Function}
    (h : (s.finish id n root used).link t = .ok functions) :
    Loaded functions t s n root used := by
  have behind := CompilationUnit.getElem?_implementations
    (CompilationUnit.implementations_of_link h)
  refine ⟨?_, ?_, ?_⟩
  · obtain ⟨f, found, here⟩ := behind 0 _ (declarations_callee tables)
    have body : (s.finish id n root used).bodies.lookup 0 = some (s.callee n root) := by
      simp [bodies_finish tables]
    rw [CompilationUnit.implementation_own body] at found
    rw [here, ← Except.ok.inj found]
  · intro k name m imported
    obtain ⟨f, found, here⟩ := behind (k + 1) _ (declarations_import tables imported)
    rw [CompilationUnit.implementation_imported] at found
    cases resolved : t.resolve name m with
    | error e =>
      rw [resolved] at found
      cases found
    | ok r =>
      rw [resolved] at found
      cases found
      exact ⟨r, rfl, here⟩
  · rintro rfl
    obtain ⟨f, found, here⟩ := behind (s.imports.length + 1) _ (declarations_caller tables)
    have body : (s.finish id n root .buffer).bodies.lookup (s.imports.length + 1) =
        some (caller (s.imports.length + 1) n) := by
      simp [bodies_finish tables, List.lookup_cons]
    rw [Nat.zero_add, CompilationUnit.implementation_own body] at found
    rw [here, ← Except.ok.inj found]

end Lowering

namespace Machine

variable {enter : Nat → List Word → Except MachineFault (Word × List Call)}
  {references : List FunctionRef}

/-- How many slots a byte offset of 32 bits reaches, `2^28`. -/
def slotLimit : Nat := 268435456

theorem toInt_offset {i : Nat} (small : i < slotLimit) :
    (Int32.ofNat (8 * i)).toInt = 8 * i := by
  have size : Int32.size = 4294967296 := rfl
  have limit : slotLimit = 268435456 := rfl
  rw [Int32.toInt_ofNat', Int.bmod_eq_of_le]
  · push_cast
    rfl
  · omega
  · omega

theorem slot_offset (slots : List Double) {i : Nat} (small : i < slotLimit) :
    slot slots (Int32.ofNat (8 * i)) = slots.getD i 0 := by
  rw [slot, toInt_offset small, if_neg (by omega)]
  congr 1
  omega

def passed (slots : List Double) (n : Nat) : List Double :=
  (List.range n).map fun i => slot slots (Int32.ofNat (8 * i))

theorem length_passed (slots : List Double) (n : Nat) : (passed slots n).length = n := by
  simp [passed]

theorem passed_eq {args : List Double} (small : args.length ≤ slotLimit) :
    passed args args.length = args := by
  apply List.ext_getElem
  · exact length_passed args args.length
  · intro i _ inside
    simp only [passed, List.getElem_map, List.getElem_range]
    rw [slot_offset args (Nat.lt_of_lt_of_le inside small)]
    simp [inside]

theorem steps_loads (slots : List Double) {values : List Word} {w : Word}
    (base : values[0]? = some w) (is : List Nat) :
    steps enter slots references values (is.map fun i => .load 0 (Int32.ofNat (8 * i))) =
      .ok (values ++ is.map fun i => .double (slot slots (Int32.ofNat (8 * i))), []) := by
  induction is generalizing values with
  | nil => simp [steps]
  | cons i is ih =>
    have loaded : step enter slots references values (.load 0 (Int32.ofNat (8 * i))) =
        .ok (.double (slot slots (Int32.ofNat (8 * i))), []) := by
      rw [step, read_of_getElem? base]
      rfl
    have base' : (values ++ [.double (slot slots (Int32.ofNat (8 * i)))])[0]? = some w := by
      rw [List.getElem?_append_left (List.getElem?_eq_some_iff.mp base).1, base]
    have rest := ih base'
    rw [List.map_cons, steps, loaded]
    simp only [bind, Except.bind, rest]
    simp [pure, Except.pure]

def loaded (args : List Double) : List Word := .address :: args.map .double

theorem map_getD_range (args : List Double) :
    ((List.range args.length).map fun i => Word.double (args.getD i 0)) = args.map .double := by
  apply List.ext_getElem
  · simp
  · intro i _ hi
    have inside : i < args.length := by simpa using hi
    simp [inside]

theorem steps_loaded (slots : List Double) (n : Nat) :
    steps enter slots references []
      (.bufferAddress :: (List.range n).map fun i => .load 0 (Int32.ofNat (8 * i))) =
        .ok (loaded (passed slots n), []) := by
  have base : [Word.address][0]? = some .address := rfl
  have rest : steps enter slots references [.address]
      ((List.range n).map fun i => .load 0 (Int32.ofNat (8 * i))) = _ :=
    steps_loads slots base (List.range n)
  rw [steps, step]
  simp only [bind, Except.bind, List.nil_append, rest, loaded, passed, List.map_map]
  rfl

theorem readAll_loaded (args : List Double) :
    readAll (loaded args) ((List.range args.length).map (· + 1)) = .ok (args.map .double) := by
  have held : ∀ j ∈ List.range args.length,
      (loaded args)[j + 1]? = some (.double (args.getD j 0)) := by
    intro j hj
    have inside := List.mem_range.mp hj
    simp [loaded, inside]
  rw [readAll_map held, List.map_map]
  exact congrArg Except.ok (map_getD_range args)

end Machine

namespace Loaded

variable {functions : List Function} {t : SymbolTable} {s : Lowering} {n root : Nat}
  {used : Strategy}

theorem linked (h : Loaded functions t s n root used) (tables : s.Agrees n) (slots : List Double)
    {depth : Nat} (deep : s.imports.length ≤ depth) :
    Linked t s.imports (s.callee n root).references (Machine.call functions slots depth) := by
  intro k name m imported one two
  obtain ⟨f, resolved, behind⟩ := h.imports k name m imported
  refine ⟨f, k + 1, .f64 m, SymbolTable.resolveCall_of_resolve resolved one two, ?_, ?_⟩
  · rw [Lowering.references_callee tables, Lowering.getElem?_externs, imported]
    rfl
  · intro xs counted
    have inside := (List.getElem?_eq_some_iff.mp imported).1
    obtain ⟨d, rfl⟩ : ∃ d, depth = d + 1 := ⟨depth - 1, by omega⟩
    simp [Machine.call, behind, counted, Function.comp_def, Word.toDouble]

theorem call_callee (h : Loaded functions t s n root used) {g : Graph} {t₀ : SymbolTable}
    {params : List Variable} {args : List Double} (slots : List Double) {depth : Nat}
    (deep : s.imports.length ≤ depth) (arity : params.length = n)
    (counted : args.length = params.length) (distinct : (params.map (·.id)).Nodup)
    (run : foldUntil (Lowering.step g t₀ params) (.start params.length) (g.visits root) =
      (s, none)) :
    ∃ x calls, Machine.call functions slots (depth + 1) 0 (args.map .double) =
      .ok (.double x, calls) ∧ g.evaluate root t params args = (calls, .ok x) := by
  obtain ⟨values, calls, x, ran, returned, evaluated⟩ :=
    Graph.evaluate_eq_code slots counted distinct run
      (h.linked (arity ▸ Lowering.agrees_of_walk run) slots deep)
  refine ⟨x, calls, ?_, evaluated⟩
  have passed : (args.map Word.double).length = n := by simp [counted, arity]
  rw [Machine.call, h.callee]
  simp only [passed, ne_eq, not_true_eq_false, if_false, Lowering.callee] at ran ⊢
  simp [ran, returned, bind, Except.bind, pure, Except.pure]

theorem call_caller (h : Loaded functions t s n root .buffer) {slots : List Double} {depth : Nat}
    {x : Double} {calls : List Call}
    (called : Machine.call functions slots depth 0 ((Machine.passed slots n).map .double) =
      .ok (.double x, calls)) :
    Machine.call functions slots (depth + 1) (s.imports.length + 1) [] =
      .ok (.double x, calls) := by
  have counted := Machine.length_passed slots n
  have read : Machine.readAll (Machine.loaded (Machine.passed slots n))
      ((List.range n).map (· + 1)) = .ok ((Machine.passed slots n).map .double) := by
    have all := Machine.readAll_loaded (Machine.passed slots n)
    rwa [counted] at all
  have last : Machine.step (Machine.call functions slots depth) slots
      (Lowering.caller (s.imports.length + 1) n).references
      (Machine.loaded (Machine.passed slots n))
      (.call 0 ((List.range n).map (· + 1))) = .ok (.double x, calls) := by
    rw [Machine.step]
    simp only [Lowering.caller, List.getElem?_cons_zero, read]
    exact called
  have code := Machine.steps_concat (Machine.steps_loaded slots n) last
  have returned : Machine.read (Machine.loaded (Machine.passed slots n) ++ [.double x]) (n + 1) =
      .ok (.double x) := by
    apply Machine.read_of_getElem?
    simp [Machine.loaded, counted]
  rw [Machine.call, h.caller rfl]
  simp only [List.length_nil, ne_eq, not_true_eq_false, if_false]
  simp only [Lowering.caller] at code ⊢
  simp only [code, returned, bind, Except.bind, pure, Except.pure, List.nil_append]

theorem imports_lt_length (h : Loaded functions t s n root used) :
    s.imports.length < functions.length := by
  cases count : s.imports.length with
  | zero => exact (List.getElem?_eq_some_iff.mp h.callee).1
  | succ k =>
    have inside : k < s.imports.length := by omega
    obtain ⟨f, -, behind⟩ := h.imports k _ _ (List.getElem?_eq_getElem inside)
    exact (List.getElem?_eq_some_iff.mp behind).1

section Run

variable {g : Graph} {t₀ : SymbolTable} {params : List Variable} {args : List Double}

theorem run_callee (h : Loaded functions t s n root used) (slots : List Double)
    (arity : params.length = n) (counted : args.length = params.length)
    (distinct : (params.map (·.id)).Nodup)
    (run : foldUntil (Lowering.step g t₀ params) (.start params.length) (g.visits root) =
      (s, none)) :
    ∃ x calls, Machine.run functions slots 0 args = .ok (x, calls) ∧
      g.evaluate root t params args = (calls, .ok x) := by
  have deep := h.imports_lt_length
  obtain ⟨depth, length⟩ : ∃ depth, functions.length = depth + 1 :=
    ⟨functions.length - 1, by omega⟩
  obtain ⟨x, calls, called, evaluated⟩ :=
    h.call_callee slots (by omega : s.imports.length ≤ depth) arity counted distinct run
  refine ⟨x, calls, ?_, evaluated⟩
  have passed : Machine.arity functions 0 = args.length := by
    rw [Machine.arity, h.callee, counted, arity]
  rw [Machine.run, passed, Machine.map_getD_range, length, called]
  rfl

theorem run_caller_passed (h : Loaded functions t s n root .buffer) (slots : List Double)
    (arity : params.length = n) (distinct : (params.map (·.id)).Nodup)
    (run : foldUntil (Lowering.step g t₀ params) (.start params.length) (g.visits root) =
      (s, none)) :
    ∃ x calls, Machine.run functions slots (s.imports.length + 1) [] = .ok (x, calls) ∧
      g.evaluate root t params (Machine.passed slots n) = (calls, .ok x) := by
  have deep := (List.getElem?_eq_some_iff.mp (h.caller rfl)).1
  obtain ⟨depth, length⟩ : ∃ depth, functions.length = depth + 1 + 1 :=
    ⟨functions.length - 2, by omega⟩
  obtain ⟨x, calls, called, evaluated⟩ :=
    h.call_callee slots (by omega : s.imports.length ≤ depth) arity
      ((Machine.length_passed slots n).trans arity.symm) distinct run
  refine ⟨x, calls, ?_, evaluated⟩
  have none : Machine.arity functions (s.imports.length + 1) = 0 := by
    rw [Machine.arity, h.caller rfl]
  rw [Machine.run, none, List.range_zero, List.map_nil, length, h.call_caller called]
  rfl

theorem run_caller (h : Loaded functions t s n root .buffer) (small : n ≤ Machine.slotLimit)
    (arity : params.length = n) (counted : args.length = params.length)
    (distinct : (params.map (·.id)).Nodup)
    (run : foldUntil (Lowering.step g t₀ params) (.start params.length) (g.visits root) =
      (s, none)) :
    ∃ x calls, Machine.run functions args (s.imports.length + 1) [] = .ok (x, calls) ∧
      g.evaluate root t params args = (calls, .ok x) := by
  have length := counted.trans arity
  have same : Machine.passed args n = args := by
    rw [← length] at small ⊢
    exact Machine.passed_eq small
  have ran := h.run_caller_passed args arity distinct run
  rwa [same] at ran

end Run

end Loaded
end ExprCompiler
