import ExprCompiler.Proofs.CommonAcceptance
import ExprCompiler.Proofs.SymbolHistory

/-! Registration extends what expressions can say and changes nothing of what they
said before. Evaluation and lowering ask a symbol table at the calls of the graph and
nowhere else, so tables that answer alike there cannot be told apart. A built-in
function answers alike in every table, and a function that was registered answers
under its own name only. -/
namespace ExprCompiler

theorem foldUntil_congr {step step' : σ → ι → Except ε σ} {xs : List ι}
    (same : ∀ s, ∀ x ∈ xs, step s x = step' s x) (s : σ) :
    foldUntil step s xs = foldUntil step' s xs := by
  induction xs generalizing s with
  | nil => rfl
  | cons x xs ih =>
    have rest := ih fun s y hy => same s y (by simp [hy])
    simp only [foldUntil, same s x (by simp), rest]

namespace Graph

variable {g : Graph} {root i : Nat} {t t' : SymbolTable}

theorem reaches_of_leave_mem (left : .leave i ∈ g.visits root) : g.Reaches root i := by
  obtain ⟨j, only, below⟩ := (g.walks_visits root).reaches_of_leave left
  rwa [List.mem_singleton.mp only] at below

theorem reaches_of_enter_mem (entered : .enter i ∈ g.visits root) : g.Reaches root i :=
  reaches_of_leave_mem ((g.walks_visits root).leave_of_enter entered)

theorem evaluate_congr (same : ∀ name n, .call name n ∈ (g.expr root).sites →
      t'.resolveCall name n = t.resolveCall name n) (params : List Variable) (args : List Double) :
    g.evaluate root t' params args = g.evaluate root t params args := by
  have here (i : Nat) (name : String) (js : List Nat) (below : g.Reaches root i)
      (kind : g.node i = .call name js) :
      t'.resolveCall name js.length = t.resolveCall name js.length :=
    same name _ ((g.mem_sites_call_iff root name js.length).mpr ⟨i, js, below, kind, rfl⟩)
  have step (s : Evaluation) (v : Visit) (hv : v ∈ g.visits root) :
      Evaluation.step g t' (.ofArgs params args) s v =
        Evaluation.step g t (.ofArgs params args) s v := by
    cases v with
    | again i => rfl
    | enter i =>
      cases kind : g.node i with
      | call name js =>
        simp only [Evaluation.step, kind, here i name js (reaches_of_enter_mem hv) kind]
      | var _ | const _ | neg _ | binary _ _ _ => simp only [Evaluation.step, kind]
    | leave i =>
      cases kind : g.node i with
      | call name js =>
        simp only [Evaluation.step, kind, here i name js (reaches_of_leave_mem hv) kind]
      | var _ | const _ | neg _ | binary _ _ _ => simp only [Evaluation.step, kind]
  rw [evaluate, evaluate, foldUntil_congr step]

theorem lower_congr (folded : Bool)
    (same : ∀ name n, .call name n ∈ (g.expr root).sites → t'.known? name = t.known? name)
    (id : Nat) (params : List Variable) (strategy : Strategy) :
    g.lower root folded t' id params strategy = g.lower root folded t id params strategy := by
  have step (s : Lowering) (v : Visit)
      (hv : v ∈ (g.lowered root folded).1.visits (g.lowered root folded).2) :
      Lowering.step (g.lowered root folded).1 t' params s v =
        Lowering.step (g.lowered root folded).1 t params s v := by
    cases v with
    | again i => rfl
    | leave i => rfl
    | enter i =>
      cases kind : (g.lowered root folded).1.node i with
      | call name js =>
        have called := (mem_sites_call_iff _ _ name js.length).mpr
          ⟨i, js, reaches_of_enter_mem hv, kind, rfl⟩
        -- The walk may be over the folded graph, which has the calls of the other one.
        rw [sites_lowered] at called
        simp only [Lowering.step, kind, Lowering.declare, same name js.length called]
      | var _ | const _ | neg _ | binary _ _ _ => simp only [Lowering.step, kind]
  cases resolved : strategy.resolve params.length with
  | error e => simp only [lower, resolved]
  | ok used =>
    by_cases distinct : (params.map (·.id)).Nodup
    · rw [lower_eq_walk _ _ _ _ _ resolved distinct, lower_eq_walk _ _ _ _ _ resolved distinct,
        foldUntil_congr step]
    · cases repeated : Variable.firstRepeated? [] params with
      | none => exact absurd (Variable.firstRepeated?_nil_eq_none_iff.mp repeated) distinct
      | some v => simp only [lower, resolved, repeated]

theorem called_of_mem_imports {folded : Bool} {id : Nat} {params : List Variable}
    {strategy : Strategy} {u : CompilationUnit}
    (lowered : (g.lower root folded t id params strategy).result = .ok u) {d : Declaration}
    (imported : d ∈ u.imports) : .call d.name d.signature.params.length ∈ (g.expr root).sites := by
  rw [imports_of_lower lowered] at imported
  obtain ⟨p, first, rfl⟩ := List.mem_map.mp imported
  simpa [Signature.f64] using Site.call_mem_of_imported first

end Graph

namespace SymbolTable

variable {t t' : SymbolTable} {name : String} {n : Nat}

theorem resolve_of_builtin? {i : Intrinsic} (built : t.platform.builtin? name = some i) :
    t.resolve name i.arity = .ok ⟨.builtin, i.native⟩ := by
  have known : t.known? name = some i := by rw [known?, built, Option.some_or]
  rw [resolve_of_known i.arity known, if_pos rfl, built]
  rfl

theorem resolveCall_of_builtin? {i : Intrinsic} (built : t.platform.builtin? name = some i) :
    t.resolveCall name i.arity = .ok ⟨.builtin, i.native⟩ := by
  have arity := arity_of_builtin? built
  exact resolveCall_of_resolve (resolve_of_builtin? built) (by omega) (by omega)

theorem builtin_of_resolveCall {p : Platform} {f : Resolution}
    (resolved : (builtinsOnly p).resolveCall name n = .ok f) :
    ∃ i, p.builtin? name = some i ∧ i.arity = n := by
  have found : (builtinsOnly p).resolve name n = .ok f := by
    unfold resolveCall at resolved
    split at resolved
    · cases resolved
    · exact resolved
  have known : (builtinsOnly p).known? name = p.builtin? name := Option.or_none
  cases built : p.builtin? name with
  | none =>
    rw [built] at known
    rw [resolve_of_unknown known] at found
    cases found
  | some i =>
    rw [built] at known
    rw [resolve_of_known n known] at found
    split at found
    · next fits => exact ⟨i, rfl, fits⟩
    · cases found

structure Alike (t t' : SymbolTable) (name : String) : Prop where
  platform : t'.platform = t.platform
  host : t'.host = t.host
  registered : t'.registered? name = t.registered? name

theorem Alike.known? (h : t.Alike t' name) : t'.known? name = t.known? name := by
  rw [SymbolTable.known?, SymbolTable.known?, h.platform, h.registered]

theorem Alike.resolve (h : t.Alike t' name) (n : Nat) : t'.resolve name n = t.resolve name n := by
  rw [SymbolTable.resolve, SymbolTable.resolve, h.platform, h.registered, h.host]

theorem Alike.resolveCall (h : t.Alike t' name) (n : Nat) :
    t'.resolveCall name n = t.resolveCall name n := by
  rw [SymbolTable.resolveCall, SymbolTable.resolveCall, expectedArity, expectedArity, h.known?,
    h.resolve]

theorem alike_register {i : Intrinsic} (t : SymbolTable) (other : name ≠ i.name) :
    t.Alike (t.register i).1 name := by
  unfold register
  split
  · exact ⟨rfl, rfl, rfl⟩
  · split
    · exact ⟨rfl, rfl, rfl⟩
    · refine ⟨rfl, rfl, ?_⟩
      rw [registered?_append, if_neg other.symm, Option.or_none]

end SymbolTable

namespace Graph

variable {g : Graph} {root : Nat} {params : List Variable} {args : List Double} {x : Double}

theorem settled_of_evaluate {t : SymbolTable}
    (evaluated : (g.evaluate root t params args).2 = .ok x) :
    args.length = params.length ∧
      ∀ y ∈ (g.expr root).sites, y.Settled t (.ofArgs params args) := by
  rw [evaluate_snd] at evaluated
  split at evaluated
  · cases evaluated
  · next counted => exact ⟨not_not.mp counted, (g.exists_evaluate_iff _ _ _).mp ⟨x, evaluated⟩⟩

theorem builtin_of_evaluate {p : Platform}
    (evaluated : (g.evaluate root (.builtinsOnly p) params args).2 = .ok x) (name : String)
    (n : Nat) (called : .call name n ∈ (g.expr root).sites) :
    ∃ i, p.builtin? name = some i ∧ i.arity = n := by
  obtain ⟨f, resolved⟩ := (settled_of_evaluate evaluated).2 (.call name n) called
  exact SymbolTable.builtin_of_resolveCall resolved

theorem acceptable_of_evaluate {t : SymbolTable}
    (evaluated : (g.evaluate root (.builtinsOnly t.platform) params args).2 = .ok x)
    {strategy : Strategy} (distinct : (params.map (·.id)).Nodup)
    (fits : ¬ (strategy = .positional ∧ 8 < params.length)) :
    g.Acceptable root t params strategy := by
  obtain ⟨counted, settled⟩ := settled_of_evaluate evaluated
  have builtin := builtin_of_evaluate evaluated
  rw [acceptable_iff, Site.faultless_iff]
  refine ⟨fits, distinct, ?_, ?_, ?_⟩
  · intro v hv
    exact (Bindings.exists_value_ofArgs_iff counted v).mp (settled (.var v) hv)
  · intro name n called
    obtain ⟨i, built, rfl⟩ := builtin name n called
    have arity := SymbolTable.arity_of_builtin? built
    refine ⟨by omega, by omega, fun f known => ?_⟩
    rw [SymbolTable.known?, built, Option.some_or] at known
    rw [Option.some.inj known]
  · intro name n m first second
    obtain ⟨i, built, rfl⟩ := builtin name n first
    obtain ⟨j, built', rfl⟩ := builtin name m second
    cases built.symm.trans built'
    rfl

end Graph

/-- An expression that evaluates with the built-in functions alone evaluates to the same
value with every table and makes the same calls; every table lowers it, unless it refuses
the parameters, and finds all its imports among the built-in functions. A registration
under a name that an expression does not call changes nothing: neither its value or
error, nor how it is lowered, nor where its imports are found. -/
theorem Graph.registration_conservative (g : Graph) (root : Nat) (t : SymbolTable) :
    (∀ params args calls x,
      g.evaluate root (.builtinsOnly t.platform) params args = (calls, .ok x) →
      g.evaluate root t params args = (calls, .ok x) ∧
      (∀ folded id strategy, (params.map (·.id)).Nodup →
        ¬ (strategy = .positional ∧ 8 < params.length) →
        ∃ u, (g.lower root folded t id params strategy).result = .ok u) ∧
      ∀ folded t₀ id params' strategy u,
        (g.lower root folded t₀ id params' strategy).result = .ok u →
        ∀ d ∈ u.imports, ∃ f, t.platform.builtin? d.name = some f ∧
          t.resolve d.name d.signature.params.length = .ok ⟨.builtin, f.native⟩) ∧
    ∀ i t', t.register i = (t', .ok ()) →
      (∀ k args, g.Reaches root k → g.node k ≠ .call i.name args) →
      (∀ params args, g.evaluate root t' params args = g.evaluate root t params args) ∧
      (∀ folded id params strategy,
        g.lower root folded t' id params strategy = g.lower root folded t id params strategy) ∧
      ∀ folded t₀ id params strategy u,
        (g.lower root folded t₀ id params strategy).result = .ok u →
        ∀ d ∈ u.imports, t'.resolve d.name d.signature.params.length =
          t.resolve d.name d.signature.params.length := by
  constructor
  · intro params args calls x evaluated
    have value := congrArg Prod.snd evaluated
    refine ⟨?_, ?_, ?_⟩
    · rw [← evaluated]
      apply evaluate_congr
      intro name n called
      obtain ⟨i, built, rfl⟩ := builtin_of_evaluate value name n called
      rw [SymbolTable.resolveCall_of_builtin? built]
      exact (SymbolTable.resolveCall_of_builtin? (t := .builtinsOnly t.platform) built).symm
    · intro folded id strategy distinct fits
      exact (g.lower_ok_iff root folded t id).mpr (acceptable_of_evaluate value distinct fits)
    · intro folded t₀ id params' strategy u lowered d imported
      obtain ⟨i, built, arity⟩ := builtin_of_evaluate value _ _
        (called_of_mem_imports lowered imported)
      exact ⟨i, built, arity ▸ SymbolTable.resolve_of_builtin? built⟩
  · intro i t' added uncalled
    have alike (name : String) (n : Nat) (called : .call name n ∈ (g.expr root).sites) :
        t.Alike t' name := by
      obtain ⟨k, js, below, kind, -⟩ := (g.mem_sites_call_iff root name n).mp called
      have other : name ≠ i.name := by
        rintro rfl
        exact uncalled k js below kind
      have alike := t.alike_register other
      rwa [added] at alike
    refine ⟨?_, ?_, ?_⟩
    · exact evaluate_congr fun name n called => (alike name n called).resolveCall n
    · intro folded
      exact lower_congr folded fun name n called => (alike name n called).known?
    · intro folded t₀ id params strategy u lowered d imported
      exact (alike _ _ (called_of_mem_imports lowered imported)).resolve _

def halvedGreater : Graph :=
  ⟨#[.var ⟨0, "x"⟩, .call "abs" [0], .call "max" [0, 1], .call "half" [2]], by decide⟩

theorem halvedGreater_registration_conservative :
    ∃ t t' u, (SymbolTable.new .standard true).register ⟨"half", 1, Catalogue.half⟩ = (t, .ok ()) ∧
      t.register ⟨"triple", 1, Catalogue.triple⟩ = (t', .ok ()) ∧
      halvedGreater.evaluate 2 t [⟨0, "x"⟩] [-3] = ([⟨"abs", [-3]⟩, ⟨"max", [-3, 3]⟩], .ok 3) ∧
      (halvedGreater.lower 2 true t 7 [⟨0, "x"⟩] .auto).result = .ok u ∧
      (∀ d ∈ u.imports, ∃ f, t.platform.builtin? d.name = some f ∧
        t.resolve d.name d.signature.params.length = .ok ⟨.builtin, f.native⟩) ∧
      halvedGreater.evaluate 3 t' [⟨0, "x"⟩] [-3] = halvedGreater.evaluate 3 t [⟨0, "x"⟩] [-3] ∧
      halvedGreater.lower 3 true t' 8 [⟨0, "x"⟩] .auto =
        halvedGreater.lower 3 true t 8 [⟨0, "x"⟩] .auto := by
  have value : halvedGreater.evaluate 2 (.builtinsOnly .standard) [⟨0, "x"⟩] [-3] =
      ([⟨"abs", [-3]⟩, ⟨"max", [-3, 3]⟩], .ok 3) := by decide +kernel
  have added : (SymbolTable.mk .standard [⟨"half", 1, Catalogue.half⟩] true).register
      ⟨"triple", 1, Catalogue.triple⟩ =
        (⟨.standard, [⟨"half", 1, Catalogue.half⟩, ⟨"triple", 1, Catalogue.triple⟩], true⟩,
          .ok ()) := rfl
  have uncalled (k : Nat) (args : List Nat) (below : halvedGreater.Reaches 3 k) :
      halvedGreater.node k ≠ .call "triple" args := by
    have bound := below.le
    interval_cases k <;> simp [halvedGreater, Graph.node]
  obtain ⟨extended, lowers, imports⟩ :=
    (halvedGreater.registration_conservative 2
      ⟨.standard, [⟨"half", 1, Catalogue.half⟩], true⟩).1 _ _ _ _ value
  obtain ⟨u, lowered⟩ := lowers true 7 .auto (by decide) (by decide)
  obtain ⟨evaluates, lowersAlike, -⟩ :=
    (halvedGreater.registration_conservative 3 _).2 _ _ added uncalled
  exact ⟨_, _, u, rfl, added, extended, lowered, imports _ _ _ _ _ _ lowered, evaluates _ _,
    lowersAlike _ _ _ _⟩

end ExprCompiler
