import ExprCompiler.Proofs.FoldedLowering
import ExprCompiler.Proofs.Lifetime

/-! Compilation and evaluation accept the same expressions. Both ask the same of
every variable and every call of the tree; compilation asks in addition that the
parameters are distinct, that the strategy can pass them, and that the calls of
one name agree in their argument count. That known functions take one or two
arguments is an invariant of the tables of a session. -/
namespace ExprCompiler

theorem exists_bind_eq_ok_iff {r : Except ε α} {f : α → Except ε β} :
    (∃ b, r >>= f = .ok b) ↔ ∃ a, r = .ok a ∧ ∃ b, f a = .ok b := by
  cases r with
  | error e => simp [bind, Except.bind]
  | ok a => simp [bind, Except.bind]

theorem Bindings.exists_value_ofArgs_iff {params : List Variable} {args : List Double}
    (counted : args.length = params.length) (v : Variable) :
    (∃ x, (Bindings.ofArgs params args).value v = .ok x) ↔ v.id ∈ params.map (·.id) := by
  have keys : (Bindings.ofArgs params args).map (·.1) = params.map (·.id) := by
    rw [Bindings.ofArgs, List.map_fst_zip (by simp [counted])]
  rw [← keys, Bindings.value, Bindings.value?]
  cases found : (Bindings.ofArgs params args).reverse.lookup v.id with
  | some x =>
    obtain ⟨before, after, split, -⟩ := List.lookup_eq_some_iff.mp found
    have bound : (v.id, x) ∈ (Bindings.ofArgs params args).reverse := by simp [split]
    have named : v.id ∈ (Bindings.ofArgs params args).map (·.1) :=
      List.mem_map.mpr ⟨_, List.mem_reverse.mp bound, rfl⟩
    simp only [named, iff_true]
    exact ⟨x, rfl⟩
  | none =>
    rw [List.lookup_eq_none_iff] at found
    constructor
    · rintro ⟨x, h⟩
      cases h
    · intro named
      obtain ⟨p, hp, same⟩ := List.mem_map.mp named
      have apart := found p (List.mem_reverse.mpr hp)
      simp [same] at apart

namespace Site

/-- What evaluation asks of a place of the tree. -/
def Settled (t : SymbolTable) (b : Bindings) : Site → Prop
  | .var v => ∃ x, b.value v = .ok x
  | .call name n => ∃ f, t.resolveCall name n = .ok f

end Site

theorem Node.settled_iff (t : SymbolTable) (b : Bindings) (n : Node) (xs : List Double) :
    (∀ x ∈ n.sites, x.Settled t b) ↔
      (∃ u, n.precheck t = .ok u) ∧ ∃ y, n.value t b xs = .ok y := by
  cases n with
  | var v => simp [sites, Site.Settled, precheck, value]
  | const c => simp [sites, precheck, value]
  | neg a => simp [sites, precheck, value]
  | binary op a c => simp [sites, precheck, value]
  | call name args =>
    simp only [sites, List.forall_mem_singleton, Site.Settled, precheck, value]
    cases t.resolveCall name args.length <;> simp [Except.map]

theorem Graph.exists_evaluate_iff (g : Graph) (t : SymbolTable) (b : Bindings) (i : Nat) :
    (∃ x, (g.expr i).evaluate t b = .ok x) ↔ ∀ x ∈ (g.expr i).sites, x.Settled t b := by
  induction i using g.node_induction with
  | step i ih =>
    have operands : (∃ xs, firstError ((g.node i).operands.map fun j => (g.expr j).evaluate t b) =
        .ok xs) ↔ ∀ x ∈ (g.node i).operands.flatMap fun j => (g.expr j).sites, x.Settled t b := by
      rw [exists_firstError_map_iff]
      constructor
      · intro all x hx
        obtain ⟨j, hj, hx⟩ := List.mem_flatMap.mp hx
        exact (ih j hj).mp (all j hj) x hx
      · intro all j hj
        exact (ih j hj).mpr fun x hx => all x (List.mem_flatMap.mpr ⟨j, hj, hx⟩)
    rw [evaluate_expr, sites_expr, List.forall_mem_append, ← operands, exists_bind_eq_ok_iff]
    constructor
    · rintro ⟨u, checked, value⟩
      obtain ⟨xs, below, y, value⟩ := exists_bind_eq_ok_iff.mp value
      exact ⟨(Node.settled_iff t b _ xs).mpr ⟨⟨u, checked⟩, y, value⟩, xs, below⟩
    · rintro ⟨own, xs, below⟩
      obtain ⟨⟨u, checked⟩, value⟩ := (Node.settled_iff t b _ xs).mp own
      exact ⟨u, checked, exists_bind_eq_ok_iff.mpr ⟨xs, below, value⟩⟩

namespace SymbolTable

def Supported (t : SymbolTable) : Prop := ∀ i ∈ t.registered, i.arity = 1 ∨ i.arity = 2

variable {t t' : SymbolTable} {name : String} {n : Nat}

theorem Supported.change (h : t.Supported) (change : t.Change t') : t'.Supported := by
  cases change with
  | clear => exact fun i hi => by simp [clear] at hi
  | register i =>
    unfold register
    split
    · exact h
    · next arity =>
      split
      · exact h
      · intro j hj
        rcases List.mem_append.mp hj with before | here
        · exact h j before
        · rw [List.mem_singleton.mp here]
          omega

theorem Supported.becomes (h : t.Supported) (becomes : t.Becomes t') : t'.Supported := by
  induction becomes with
  | refl => exact h
  | tail _ change ih => exact ih.change change

theorem arity_of_builtin? {p : Platform} {f : Intrinsic} (h : p.builtin? name = some f) :
    f.arity = 1 ∨ f.arity = 2 := by
  have built := List.mem_of_find?_eq_some h
  rcases List.mem_append.mp built with unary | binary
  · obtain ⟨p, -, rfl⟩ := List.mem_map.mp unary
    exact .inl rfl
  · obtain ⟨p, -, rfl⟩ := List.mem_map.mp binary
    exact .inr rfl

theorem Supported.arity_of_known? (h : t.Supported) {f : Intrinsic}
    (known : t.known? name = some f) : f.arity = 1 ∨ f.arity = 2 := by
  rcases Option.or_eq_some_iff.mp known with built | ⟨-, registered⟩
  · exact arity_of_builtin? built
  · exact h f (List.mem_of_find?_eq_some registered)

theorem Supported.exists_resolveCall_iff (h : t.Supported) :
    (∃ f, t.resolveCall name n = .ok f) ↔
      (1 ≤ n ∧ n ≤ 2 ∧ ∀ f, t.known? name = some f → f.arity = n) ∧
        ∃ f, t.resolve name n = .ok f := by
  have expected : n = t.expectedArity name n ↔
      1 ≤ n ∧ n ≤ 2 ∧ ∀ f, t.known? name = some f → f.arity = n := by
    unfold expectedArity
    cases known : t.known? name with
    | none =>
      simp only [reduceCtorEq, false_implies, implies_true, and_true]
      omega
    | some f =>
      have arity := h.arity_of_known? known
      simp only [Option.some.injEq, forall_eq']
      omega
  rw [resolveCall, ← expected]
  by_cases fits : n = t.expectedArity name n
  · simp [← fits]
  · simp [fits]

end SymbolTable

def Session.Supported (s : Session) : Prop :=
  ∀ k e, s.engine? k = some e → e.symbols.Supported

theorem Session.Effect.supported {s s' : Session} {event : Option Event} {touched : Option Nat}
    (h : s.Effect event touched s') (before : s.Supported) : s'.Supported := by
  intro k e there
  have turns := h.turns k
  rw [there] at turns
  cases old : s.engine? k with
  | none =>
    rw [old] at turns
    cases turns with
    | created platform config => exact fun i hi => by simp [Engine.new, SymbolTable.new] at hi
  | some e₀ =>
    rw [old] at turns
    have held := before k e₀ old
    cases turns with
    | same _ => exact held
    | symbols becomes => exact held.becomes becomes
    | freed => exact held
    | compiled compiled =>
      obtain ⟨functions, -, rfl, -⟩ := Engine.compile_cases compiled
      exact held

theorem Session.supported_run (platform : Platform) (folded : Bool) (vars : List Variable)
    (graph : Graph) (nodes : List Nat) (commands : List Command) :
    ((opened platform folded vars graph nodes).run commands).1.Supported := by
  have first : (opened platform folded vars graph nodes).Supported := by
    intro k e there
    simp [opened, on, engine?] at there
  exact run_induction (P := fun _ _ s => s.Supported)
    (fun _ _ _ _ _ _ before effect => effect.supported before) [] [] first commands

theorem Graph.imports_of_lower {g : Graph} {root : Nat} {folded : Bool} {t : SymbolTable} {id : Nat}
    {params : List Variable} {strategy : Strategy} {u : CompilationUnit}
    (lowered : (g.lower root folded t id params strategy).result = .ok u) :
    u.imports = (Site.imported (g.expr root).sites).map fun p => ⟨p.1, .imported, .f64 p.2⟩ := by
  obtain ⟨used, s, -, -, walked, rfl⟩ := lower_cases lowered
  rw [Lowering.imports_finish (Lowering.agrees_of_walk walked), Lowering.imports_of_walk walked,
    sites_lowered]

theorem Engine.exists_compileExpr_iff (e : Engine) (self : Nat) (g : Graph) (root : Nat)
    (folded : Bool) (id : Nat) (params : List Variable) (strategy : Strategy) :
    (∃ c, (e.compileExpr self g root folded id params strategy).2.result = .ok c) ↔
      g.Acceptable root e.symbols params strategy ∧
        ∀ name n, .call name n ∈ (g.expr root).sites →
          ∃ f, e.symbols.resolve name n = .ok f := by
  rw [← g.lower_ok_iff root folded e.symbols id]
  cases lowered : (g.lower root folded e.symbols id params strategy).result with
  | error err => simp [compileExpr_of_error lowered]
  | ok u =>
    have agreed := ((g.lower_ok_iff root folded e.symbols id).mp ⟨u, lowered⟩)
    rw [Graph.acceptable_iff, Site.faultless_iff] at agreed
    have compiles : (∃ c, (e.compileExpr self g root folded id params strategy).2.result = .ok c) ↔
        ∀ p ∈ Site.imported (g.expr root).sites, ∃ f, e.symbols.resolve p.1 p.2 = .ok f := by
      rw [ok_iff_of_outcome (compileExpr_outcome lowered self), exists_firstError_map_iff,
        Graph.imports_of_lower lowered, List.forall_mem_map]
      simp [Signature.f64]
    rw [compiles]
    simp only [Except.ok.injEq, exists_eq', true_and]
    constructor
    · intro found name n called
      obtain ⟨p, imported, rfl⟩ := List.mem_map.mp (Site.name_mem_imported called)
      have count := agreed.2.2.2.2 p.1 p.2 n (Site.call_mem_of_imported imported) called
      rw [← count]
      exact found p imported
    · intro found p imported
      exact found p.1 p.2 (Site.call_mem_of_imported imported)

/-- Compilation succeeds exactly when evaluation does, the parameters are distinct
and can be passed, and no name whose arity is not known is called both with one
and with two arguments. -/
theorem Session.compiles_iff_evaluates (platform : Platform) (start : Bool)
    (vars : List Variable) (graph : Graph) (nodes : List Nat) (commands : List Command) {k : Nat}
    {e : Engine}
    (reached : ((opened platform start vars graph nodes).run commands).1.engine? k = some e)
    (g : Graph) (root : Nat) (folded : Bool) (id : Nat) (params : List Variable)
    (strategy : Strategy) {args : List Double} (counted : args.length = params.length) :
    (∃ c, (e.compileExpr k g root folded id params strategy).2.result = .ok c) ↔
      (∃ x, (g.evaluate root e.symbols params args).2 = .ok x) ∧
      (params.map (·.id)).Nodup ∧ ¬ (strategy = .positional ∧ 8 < params.length) ∧
      ∀ name, e.symbols.known? name = none →
        ¬ ((∃ i a, g.Reaches root i ∧ g.node i = .call name [a]) ∧
          ∃ i a b, g.Reaches root i ∧ g.node i = .call name [a, b]) := by
  have supported := supported_run platform start vars graph nodes commands k e reached
  rw [e.exists_compileExpr_iff, Graph.acceptable_iff, Site.faultless_iff, Graph.evaluate_snd,
    if_neg (not_not.mpr counted), Graph.exists_evaluate_iff]
  constructor
  · rintro ⟨⟨fits, distinct, bound, calls, agreed⟩, found⟩
    refine ⟨fun x hx => ?_, distinct, fits, ?_⟩
    · cases x with
      | var v => exact (Bindings.exists_value_ofArgs_iff counted v).mpr (bound v hx)
      | call name n =>
        exact supported.exists_resolveCall_iff.mpr ⟨calls name n hx, found name n hx⟩
    · rintro name - ⟨⟨i, a, below, one⟩, j, b, c, below', two⟩
      have first := (g.mem_sites_call_iff root name 1).mpr ⟨i, [a], below, one, rfl⟩
      have second := (g.mem_sites_call_iff root name 2).mpr ⟨j, [b, c], below', two, rfl⟩
      have same := agreed name 1 2 first second
      omega
  · rintro ⟨settled, distinct, fits, single⟩
    have calls (name : String) (n : Nat) (called : .call name n ∈ (g.expr root).sites) :=
      supported.exists_resolveCall_iff.mp (settled (.call name n) called)
    have both (name : String) (unknown : e.symbols.known? name = none)
        (one : .call name 1 ∈ (g.expr root).sites) (two : .call name 2 ∈ (g.expr root).sites) :
        False := by
      obtain ⟨i, as, below, kind, length⟩ := (g.mem_sites_call_iff root name 1).mp one
      obtain ⟨j, bs, below', kind', length'⟩ := (g.mem_sites_call_iff root name 2).mp two
      obtain ⟨a, rfl⟩ := List.length_eq_one_iff.mp length
      obtain ⟨b, c, rfl⟩ := List.length_eq_two.mp length'
      exact single name unknown ⟨⟨i, a, below, kind⟩, j, b, c, below', kind'⟩
    refine ⟨⟨fits, distinct, fun v hv => ?_, fun name n called => (calls name n called).1, ?_⟩,
      fun name n called => (calls name n called).2⟩
    · exact (Bindings.exists_value_ofArgs_iff counted v).mp (settled (.var v) hv)
    · intro name n m first second
      obtain ⟨⟨one, two, known⟩, -⟩ := calls name n first
      obtain ⟨⟨one', two', known'⟩, -⟩ := calls name m second
      cases kind : e.symbols.known? name with
      | some f => rw [← known f kind, ← known' f kind]
      | none =>
        by_contra differ
        rcases (by omega : n = 1 ∧ m = 2 ∨ n = 2 ∧ m = 1) with ⟨rfl, rfl⟩ | ⟨rfl, rfl⟩
        · exact both name kind first second
        · exact both name kind second first

def cubeRoots : Graph :=
  ⟨#[.var ⟨0, "x"⟩, .call "half" [0], .call "cbrt" [1], .call "cbrt" [0, 1], .binary .add 2 3],
    by decide⟩

def Session.registerHalf : List Command :=
  [.newEngine .default, .register (.engine 0) ⟨"half", 1, Catalogue.half⟩]

/-- The first is compiled because it evaluates. The sum evaluates too, but is not
compiled: it calls one function of the host with one and with two arguments. -/
theorem Session.cubeRoots_compiles_iff_evaluates :
    ∃ e, ((opened .standard true [] cubeRoots [4]).run registerHalf).1.engine? 0 = some e ∧
      (∃ x, (cubeRoots.evaluate 2 e.symbols [⟨0, "x"⟩] [8]).2 = .ok x) ∧
      (∃ c, (e.compileExpr 0 cubeRoots 2 true 5 [⟨0, "x"⟩] .auto).2.result = .ok c) ∧
      (∃ x, (cubeRoots.evaluate 4 e.symbols [⟨0, "x"⟩] [8]).2 = .ok x) ∧
      ¬ ∃ c, (e.compileExpr 0 cubeRoots 4 true 5 [⟨0, "x"⟩] .auto).2.result = .ok c := by
  have chain : (((opened .standard true [] cubeRoots [4]).run registerHalf).1.engine? 0).map
      (fun e => ((cubeRoots.evaluate 2 e.symbols [⟨0, "x"⟩] [8]).2.isOk,
        (cubeRoots.evaluate 4 e.symbols [⟨0, "x"⟩] [8]).2.isOk,
        (e.symbols.known? "cbrt").isNone)) = some (true, true, true) := by decide +kernel
  obtain ⟨e, reached, all⟩ := Option.map_eq_some_iff.mp chain
  simp only [Prod.mk.injEq, Option.isNone_iff_eq_none] at all
  obtain ⟨first, second, unknown⟩ := all
  have counted : [(8 : Double)].length = [Variable.mk 0 "x"].length := rfl
  have distinct : ([Variable.mk 0 "x"].map (·.id)).Nodup := by decide
  have fits : ¬ (Strategy.auto = .positional ∧ 8 < [Variable.mk 0 "x"].length) := by decide
  have iff (root : Nat) := compiles_iff_evaluates .standard true [] cubeRoots [4] registerHalf
    reached cubeRoots root true 5 [⟨0, "x"⟩] .auto counted
  have alone : ∀ i ≤ 2, ∀ name a b, cubeRoots.node i ≠ .call name [a, b] := by
    intro i bound name a b
    interval_cases i <;> simp [cubeRoots, Graph.node]
  refine ⟨e, reached, exists_of_isOk first, (iff 2).mpr ⟨exists_of_isOk first, distinct, fits, ?_⟩,
    exists_of_isOk second, fun compiled => ?_⟩
  · rintro name - ⟨-, i, a, b, below, kind⟩
    exact alone i below.le name a b kind
  · have step {i j : Nat} (edge : j ∈ (cubeRoots.node i).operands) : cubeRoots.Reaches i j :=
      .head edge (.refl _ _)
    refine ((iff 4).mp compiled).2.2.2 "cbrt" unknown ⟨⟨2, 1, step (by decide), rfl⟩,
      3, 0, 1, step (by decide), rfl⟩

end ExprCompiler
