import ExprCompiler.Proofs.BindingByIdentity
import ExprCompiler.Proofs.ConservativeRegistration

/-! The variables of a graph, and a callable that takes them as its parameters. They are
collected by a walk that passes over nodes it has visited and over numbers it has seen.
Neither loses a variable or moves it: when a node is passed over, the numbers below it
have been seen. So the list has what lowering asks of parameters, and the arguments of a
call belong to the variables of the list, one after the other. -/
namespace ExprCompiler

namespace Variable

theorem distinct_eq_eraseDupsBy (vs : List Variable) :
    distinct vs = vs.eraseDupsBy fun v w => v.id == w.id := by
  cases vs with
  | nil => rfl
  | cons v vs =>
    rw [distinct, filter_distinct fun id => id ≠ v.id, distinct_eq_eraseDupsBy,
      List.eraseDupsBy_cons]
    simp
termination_by vs.length
decreasing_by exact Nat.lt_succ_of_le (List.length_filter_le _ _)

theorem id_mem_distinct {id : Nat} {vs : List Variable} :
    id ∈ (distinct vs).map (·.id) ↔ id ∈ vs.map (·.id) := by
  induction vs with
  | nil => rfl
  | cons w vs ih =>
    rw [distinct, List.map_cons, List.map_cons, List.mem_cons, List.mem_cons, ← ih]
    by_cases first : id = w.id
    · simp [first]
    · simp only [first, false_or, List.mem_map, List.mem_filter]
      constructor
      · rintro ⟨v, ⟨later, -⟩, same⟩
        exact ⟨v, later, same⟩
      · rintro ⟨v, later, same⟩
        exact ⟨v, ⟨later, by simpa [same] using first⟩, same⟩

theorem nodup_distinct (vs : List Variable) : ((distinct vs).map (·.id)).Nodup := by
  induction vs with
  | nil => exact List.nodup_nil
  | cons v vs ih =>
    rw [distinct, List.map_cons, List.nodup_cons]
    constructor
    · simp
    · exact ih.sublist (List.filter_sublist.map _)

end Variable

structure Found where
  seen : List Nat
  vars : List Variable

namespace Found

def add (f : Found) (v : Variable) : Found :=
  if v.id ∈ f.seen then f else ⟨v.id :: f.seen, f.vars ++ [v]⟩

theorem mem_seen_foldl_add {id : Nat} {f : Found} {vs : List Variable} :
    id ∈ (vs.foldl add f).seen ↔ id ∈ f.seen ∨ id ∈ vs.map (·.id) := by
  induction vs generalizing f with
  | nil => simp
  | cons v vs ih =>
    rw [List.foldl_cons, ih, add, List.map_cons, List.mem_cons]
    split
    · next known =>
      constructor
      · rintro (seen | later)
        · exact .inl seen
        · exact .inr (.inr later)
      · rintro (seen | rfl | later)
        · exact .inl seen
        · exact .inl known
        · exact .inr later
    · rw [List.mem_cons, or_comm (a := id = v.id), or_assoc]

theorem foldl_add_of_seen {f : Found} {vs : List Variable} (seen : ∀ v ∈ vs, v.id ∈ f.seen) :
    vs.foldl add f = f := by
  induction vs with
  | nil => rfl
  | cons v vs ih =>
    rw [List.foldl_cons, add, if_pos (seen v (by simp))]
    exact ih fun w hw => seen w (by simp [hw])

theorem vars_foldl_add (f : Found) (vs : List Variable) :
    (vs.foldl add f).vars = f.vars ++ (Variable.distinct vs).filter (·.id ∉ f.seen) := by
  induction vs generalizing f with
  | nil => simp [Variable.distinct]
  | cons v vs ih =>
    rw [List.foldl_cons, ih, add, Variable.distinct, List.filter_cons]
    split
    · next known =>
      rw [if_neg (by simpa using known), List.filter_filter]
      congr 1
      apply List.filter_congr
      intro w _
      by_cases same : w.id = v.id
      · simp [same, known]
      · simp [same]
    · next new =>
      rw [if_pos (by simpa using new), List.append_assoc, List.singleton_append,
        List.filter_filter]
      congr 2
      apply List.filter_congr
      intro w _
      simp [Bool.and_comm]

end Found

structure Collector where
  visited : List Nat
  found : Found

def Collector.start : Collector := ⟨[], ⟨[], []⟩⟩

def Graph.meet (g : Graph) (i : Nat) (c : Collector) : Collector :=
  ⟨i :: c.visited, (g.node i).asVar?.toList.foldl Found.add c.found⟩

def Graph.collect (g : Graph) (i : Nat) (c : Collector) : Collector :=
  if i ∈ c.visited then c
  else (g.node i).operands.attach.foldl (fun c j => g.collect j.1 c) (g.meet i c)
termination_by i
decreasing_by exact Graph.lt_of_mem _ j.2

theorem Expr.vars_eq (e : Expr) : e.vars = e.sites.filterMap Site.variable := by
  induction e with
  | var v => rfl
  | const c => rfl
  | neg a ih => exact ih
  | binary op left right ihLeft ihRight =>
    rw [sites_binary, List.filterMap_append, ← ihLeft, ← ihRight]
    rfl
  | call name args ih =>
    have below : args.map vars = args.map fun a => a.sites.filterMap Site.variable :=
      List.map_congr_left ih
    rw [sites_call, List.filterMap_cons_none rfl, List.filterMap_flatMap, List.flatMap_def,
      ← below, vars, fold_call]

theorem Expr.mem_vars_iff {e : Expr} {v : Variable} : v ∈ e.vars ↔ .var v ∈ e.sites := by
  rw [vars_eq, List.mem_filterMap]
  constructor
  · rintro ⟨x, hx, same⟩
    cases x with
    | var w =>
      cases same
      exact hx
    | call name n => cases same
  · exact fun h => ⟨.var v, h, rfl⟩

namespace Graph

variable {g : Graph} {way : List Nat} {c : Collector}

theorem vars_expr (g : Graph) (i : Nat) :
    (g.expr i).vars =
      (g.node i).asVar?.toList ++ (g.node i).operands.flatMap fun j => (g.expr j).vars := by
  have own : (g.node i).sites.filterMap Site.variable = (g.node i).asVar?.toList := by
    cases g.node i <;> rfl
  simp only [Expr.vars_eq, sites_expr g i, List.filterMap_append, own, List.filterMap_flatMap]

theorem collect_eq (g : Graph) (i : Nat) (c : Collector) :
    g.collect i c =
      if i ∈ c.visited then c
      else (g.node i).operands.foldl (fun c j => g.collect j c) (g.meet i c) := by
  rw [collect]
  simp

/-- Below a visited node that is not on the way to the current one, all was seen. -/
def Covers (g : Graph) (way : List Nat) (c : Collector) : Prop :=
  ∀ k ∈ c.visited, k ∉ way → ∀ v ∈ (g.expr k).vars, v.id ∈ c.found.seen

theorem Covers.meet (covers : g.Covers way c) (i : Nat) : g.Covers (i :: way) (g.meet i c) := by
  intro k visited off v below
  rw [List.mem_cons, not_or] at off
  have before : k ∈ c.visited := (List.mem_cons.mp visited).resolve_left off.1
  exact Found.mem_seen_foldl_add.mpr (.inl (covers k before off.2 v below))

theorem collect_operands {js : List Nat}
    (each : ∀ j ∈ js, ∀ c, g.Covers way c →
      (g.collect j c).found = (g.expr j).vars.foldl Found.add c.found ∧
        g.Covers way (g.collect j c))
    (covers : g.Covers way c) :
    (js.foldl (fun c j => g.collect j c) c).found =
        (js.flatMap fun j => (g.expr j).vars).foldl Found.add c.found ∧
      g.Covers way (js.foldl (fun c j => g.collect j c) c) := by
  induction js generalizing c with
  | nil => exact ⟨rfl, covers⟩
  | cons j js ih =>
    obtain ⟨found, covers⟩ := each j (by simp) c covers
    obtain ⟨rest, covers⟩ := ih (fun k hk => each k (by simp [hk])) covers
    refine ⟨?_, covers⟩
    rw [List.foldl_cons, rest, found, List.flatMap_cons, List.foldl_append]

/-- Collecting finds what all leaves of the tree have, seen from left to right. -/
theorem collect_spec (i : Nat) (c : Collector) (way : List Nat) (above : ∀ k ∈ way, i < k)
    (covers : g.Covers way c) :
    (g.collect i c).found = (g.expr i).vars.foldl Found.add c.found ∧
      g.Covers way (g.collect i c) := by
  induction i using g.node_induction generalizing c way with
  | step i ih =>
    rw [collect_eq]
    split
    · next visited =>
      -- The graph has no cycle: a visited node is not on the way to itself.
      have off : i ∉ way := fun on => Nat.lt_irrefl i (above i on)
      exact ⟨(Found.foldl_add_of_seen (covers i visited off)).symm, covers⟩
    · have deeper (j : Nat) (hj : j ∈ (g.node i).operands) : ∀ k ∈ i :: way, j < k := by
        intro k hk
        have less := g.lt_of_mem hj
        rcases List.mem_cons.mp hk with rfl | hk
        · exact less
        · exact Nat.lt_trans less (above k hk)
      obtain ⟨found, inside⟩ := collect_operands (fun j hj c => ih j hj c _ (deeper j hj))
        (covers.meet i)
      have found : ((g.node i).operands.foldl (fun c j => g.collect j c) (g.meet i c)).found =
          (g.expr i).vars.foldl Found.add c.found := by
        rw [found, vars_expr g i, List.foldl_append]
        rfl
      -- The node was on the way while its operands were collected. Now it is covered too.
      refine ⟨found, fun k visited off v below => ?_⟩
      by_cases here : k = i
      · subst here
        rw [found, Found.mem_seen_foldl_add]
        exact .inr (List.mem_map_of_mem below)
      · exact inside k visited (by simp [here, off]) v below

theorem vars_eq_distinct (g : Graph) (root : Nat) :
    g.vars root = Variable.distinct (g.expr root).vars := by
  rw [vars_eq, Expr.vars_eq]

theorem collect_vars (g : Graph) (root : Nat) :
    (g.collect root .start).found.vars = g.vars root := by
  obtain ⟨found, -⟩ := g.collect_spec root .start [] (by simp) fun k visited => by cases visited
  rw [found, Found.vars_foldl_add, vars_eq_distinct]
  simp [Collector.start]

theorem nodup_vars (g : Graph) (root : Nat) : ((g.vars root).map (·.id)).Nodup := by
  rw [vars_eq_distinct]
  exact Variable.nodup_distinct _

theorem id_mem_vars_iff {root id : Nat} :
    id ∈ (g.vars root).map (·.id) ↔
      ∃ j v, g.Reaches root j ∧ g.node j = .var v ∧ v.id = id := by
  rw [vars_eq_distinct, Variable.id_mem_distinct, List.mem_map]
  simp only [Expr.mem_vars_iff, mem_sites_var_iff]
  constructor
  · rintro ⟨v, ⟨j, below, kind⟩, same⟩
    exact ⟨j, v, below, kind, same⟩
  · rintro ⟨j, v, below, kind, same⟩
    exact ⟨v, ⟨j, below, kind⟩, same⟩

end Graph

theorem Site.fault?_call {t : SymbolTable} {params : List Variable} {earlier : List Site}
    {name : String} {passed : Nat} {err : Error}
    (wrong : (Site.call name passed).fault? t params earlier = some err) :
    ∃ fault, err = .lowering fault ∧ ∀ v, fault ≠ .repeatedParameter v := by
  rw [fault?] at wrong
  split at wrong
  · cases wrong
    exact ⟨_, rfl, by simp⟩
  · rcases Option.or_eq_some_iff.mp wrong with known | ⟨-, declared⟩
    · obtain ⟨n, -, rfl⟩ := Option.map_eq_some_iff.mp known
      exact ⟨_, rfl, by simp⟩
    · obtain ⟨n, -, rfl⟩ := Option.map_eq_some_iff.mp declared
      exact ⟨_, rfl, by simp⟩

theorem Engine.compileExpr_error {g : Graph} {root : Nat} {folded : Bool} {e : Engine}
    {self id : Nat} {params : List Variable} {strategy : Strategy} {err : Error}
    (failed : (e.compileExpr self g root folded id params strategy).2.result = .error err) :
    g.Refuses root e.symbols params strategy err ∨
      ∃ name n, .call name n ∈ (g.expr root).sites ∧ e.symbols.Lacks name n err := by
  cases lowered : (g.lower root folded e.symbols id params strategy).result with
  | error err' =>
    rw [compileExpr_of_error lowered] at failed
    cases failed
    exact .inl ((g.lower_error_iff root folded e.symbols id err).mp lowered)
  | ok u =>
    have outcome := compileExpr_outcome lowered self
    rw [failed] at outcome
    obtain ⟨before, d, after, imports, -, missing⟩ :=
      firstError_map_eq_error_iff.mp ((error_iff_of_outcome outcome err).mp rfl)
    exact .inr ⟨_, _, Graph.called_of_mem_imports lowered (by simp [imports]),
      SymbolTable.resolve_eq_error_iff.mp missing⟩

theorem Graph.Refuses.of_vars {g : Graph} {root : Nat} {t : SymbolTable} {strategy : Strategy}
    {err : Error} (refuses : g.Refuses root t (g.vars root) strategy err) :
    (∀ name, err ≠ .unboundVariable name) ∧ ∀ v, err ≠ .lowering (.repeatedParameter v) := by
  cases refuses with
  | strategy positional many => simp
  | @parameter before after v fits split distinct repeated =>
    have nodup := g.nodup_vars root
    rw [split, List.map_append, List.map_cons] at nodup
    exact (List.disjoint_of_nodup_append nodup repeated (by simp)).elim
  | @site before after x err fits distinct split clear wrong =>
    cases x with
    | var v =>
      obtain ⟨j, below, kind⟩ := (g.mem_sites_var_iff root v).mp (by simp [split])
      have bound := id_mem_vars_iff.mpr ⟨j, v, below, kind, rfl⟩
      rw [Site.fault?_var_eq_none_iff.mpr bound] at wrong
      cases wrong
    | call name passed =>
      obtain ⟨fault, rfl, other⟩ := Site.fault?_call wrong
      exact ⟨by simp, fun v same => other v (Error.lowering.inj same)⟩

theorem Bindings.value?_eq_ofArgs {params : List Variable} {args : List Double} {b : Bindings}
    (distinct : (params.map (·.id)).Nodup) (counted : args.length = params.length)
    (placed : ∀ (n : Nat) v, params[n]? = some v → b.value? v.id = args[n]?) {v : Variable}
    (bound : v.id ∈ params.map (·.id)) : b.value? v.id = (ofArgs params args).value? v.id := by
  obtain ⟨p, taken, same⟩ := List.mem_map.mp bound
  obtain ⟨n, param⟩ := List.getElem?_of_mem taken
  have inside : n < args.length := by
    rw [counted]
    exact (List.getElem?_eq_some_iff.mp param).1
  have arg : args[n]? = some args[n] := List.getElem?_eq_getElem inside
  rw [← toOption_value (ofArgs params args), value_ofArgs distinct counted param arg same, ← same,
    placed n p param, arg]
  rfl

section

variable {s : Session} {k i : Nat} {vs : List Variable} {strategy : Strategy} {e : Engine}

theorem Session.compileExpr_of_error {err : Error} (engine : s.engine? k = some e)
    (failed : (e.compileExpr k s.graph i s.folded s.nextUnit vs strategy).2.result = .error err) :
    ∃ notes, s.compileExpr k i vs strategy = some ⟨s, notes, .error err⟩ := by
  simp [compileExpr, engine, failed, Engine.fst_compileExpr_of_error failed, setEngine_self engine]

theorem Session.compileExpr_of_ok {e' : Engine} {notes : List Note} {c : Callable}
    (engine : s.engine? k = some e)
    (compiled : e.compileExpr k s.graph i s.folded s.nextUnit vs strategy =
      (e', ⟨notes, .ok c⟩)) :
    s.compileExpr k i vs strategy =
      some ⟨{ s.setEngine k (some e') with
        callables := s.callables ++ [some c], nextUnit := s.nextUnit + 1 }, notes,
        .ok (.callable s.callables.length c)⟩ := by
  simp [compileExpr, engine, compiled]

end

/-- The variables of an expression are those of the leaves of its tree, from left to right
and without those whose number stood before, although the collection passes over nodes.
Compiled with them an expression is never refused for an unbound variable or a repeated
parameter, but for its strategy or for a call. Otherwise the callable has them as its
parameters, returns when it is called, and takes their values as its arguments, one after
the other, as long as the offsets in a buffer can be written in 32 bits. -/
theorem Session.inferred_parameters (s : Session) {k i : Nat} {node : Option Nat} {e : Engine}
    (named : s.node? node = some i) (engine : s.engine? k = some e) (strategy : Strategy) :
    s.graph.vars i = (s.graph.expr i).vars.eraseDupsBy (fun v w => v.id == w.id) ∧
    (s.graph.collect i .start).found.vars = s.graph.vars i ∧
    ((s.graph.vars i).map (·.id)).Nodup ∧
    (∀ id, id ∈ (s.graph.vars i).map (·.id) ↔
      ∃ j v, s.graph.Reaches i j ∧ s.graph.node j = .var v ∧ v.id = id) ∧
    ∃ o, s.step (.compileInferred k node strategy) = some o ∧
      ((∃ err, o.result = .error err ∧ (∀ name, err ≠ .unboundVariable name) ∧
        (∀ v, err ≠ .lowering (.repeatedParameter v)) ∧
        (s.graph.Refuses i e.symbols (s.graph.vars i) strategy err ∨
          ∃ name n, .call name n ∈ (s.graph.expr i).sites ∧ e.symbols.Lacks name n err)) ∨
      ∃ n c e', o.result = .ok (.callable n c) ∧ c.params = s.graph.vars i ∧
        o.session.callables[n]? = some (some c) ∧ o.session.engine? k = some e' ∧
        ∀ later c' args, e'.Keeps s.nextUnit later → c.Used c' →
          args.length = (s.graph.vars i).length →
          ∃ x, (c'.invoke (some later) args).result = .ok x ∧
            ((s.graph.vars i).length ≤ Machine.slotLimit → ∀ b : Bindings,
              (∀ (m : Nat) v, (s.graph.vars i)[m]? = some v → b.value? v.id = args[m]?) →
              ((s.graph.lowered i s.folded).1.expr (s.graph.lowered i s.folded).2).evaluate
                e.symbols b = .ok x)) := by
  refine ⟨?_, s.graph.collect_vars i, s.graph.nodup_vars i, fun _ => Graph.id_mem_vars_iff, ?_⟩
  · rw [Graph.vars_eq_distinct, Variable.distinct_eq_eraseDupsBy]
  have step : s.step (.compileInferred k node strategy) =
      s.compileExpr k i (s.graph.vars i) strategy := by
    simp [Session.step, named]
  rw [step]
  cases made : (e.compileExpr k s.graph i s.folded s.nextUnit (s.graph.vars i)
      strategy).2.result with
  | error err =>
    obtain ⟨notes, answered⟩ := compileExpr_of_error engine made
    have reason := Engine.compileExpr_error made
    have other : (∀ name, err ≠ .unboundVariable name) ∧
        ∀ v, err ≠ .lowering (.repeatedParameter v) := by
      rcases reason with refuses | ⟨name, n, -, lacks⟩
      · exact refuses.of_vars
      · cases lacks <;> simp
    exact ⟨_, answered, .inl ⟨err, rfl, other.1, other.2, reason⟩⟩
  | ok c =>
    obtain ⟨e', notes, compiled⟩ : ∃ e' notes, e.compileExpr k s.graph i s.folded s.nextUnit
        (s.graph.vars i) strategy = (e', ⟨notes, .ok c⟩) := ⟨_, _, Traced.eq_of_result made⟩
    obtain ⟨u, v, x, -, -, -, wrapped⟩ := Engine.compileExpr_cases compiled
    have there : (s.setEngine k (some e')).engine? k = some e' := by
      rw [engine?_setEngine engine, if_pos rfl]
    refine ⟨_, compileExpr_of_ok engine compiled,
      .inr ⟨_, c, e', rfl, by rw [wrapped], by simp, there, ?_⟩⟩
    intro later c' args kept called counted
    have whence : c'.CompiledFrom later e.symbols s.graph i s.folded (s.graph.vars i) strategy :=
      ⟨e, e', k, s.nextUnit, notes, c, rfl, compiled, called, kept⟩
    obtain ⟨y, returned, value⟩ := whence.invoke counted
    refine ⟨y, returned, fun few b placed => ?_⟩
    rw [Callable.received_eq (counted ▸ few)] at value
    rw [← toOption_eq_some_iff, ← toOption_eq_some_iff.mpr value]
    apply Expr.toOption_evaluate_congr rfl
    intro v leaf
    rw [Graph.sites_lowered, Graph.mem_sites_var_iff] at leaf
    obtain ⟨j, below, kind⟩ := leaf
    exact Bindings.value?_eq_ofArgs (s.graph.nodup_vars i) counted placed
      (Graph.id_mem_vars_iff.mpr ⟨j, v, below, kind, rfl⟩)

def lessSum : Graph :=
  ⟨#[.var ⟨1, "v"⟩, .var ⟨0, "v"⟩, .call "max" [0, 1], .var ⟨0, "v"⟩, .binary .add 2 3,
    .binary .sub 2 4], by decide⟩

theorem lessSum_inferred_parameters :
    let s := ((Session.opened .standard true [] lessSum [5]).run [.newEngine .default]).1
    ∃ o n c e', s.step (.compileInferred 0 none .buffer) = some o ∧
      o.result = .ok (.callable n c) ∧ c.params = [⟨1, "v"⟩, ⟨0, "v"⟩] ∧
      o.session.engine? 0 = some e' ∧ (c.invoke (some e') [5, 3]).result = .ok (-3) := by
  intro s
  have named : s.node? none = some 5 := rfl
  have engine : s.engine? 0 = some (.new .standard .default) := rfl
  have vars : s.graph.vars 5 = [⟨1, "v"⟩, ⟨0, "v"⟩] := by decide +kernel
  have accepted : ((Engine.new .standard .default).compileExpr 0 s.graph 5 s.folded s.nextUnit
      (s.graph.vars 5) .buffer).2.result.isOk = true := by decide +kernel
  have value : ((s.graph.lowered 5 s.folded).1.expr (s.graph.lowered 5 s.folded).2).evaluate
      (Engine.new .standard .default).symbols (.ofArgs [⟨1, "v"⟩, ⟨0, "v"⟩] [5, 3]) = .ok (-3) := by
    decide +kernel
  obtain ⟨c, made⟩ := exists_of_isOk accepted
  have answered := Session.compileExpr_of_ok engine (Traced.eq_of_result made)
  obtain ⟨-, -, -, -, o, step, outcome⟩ := s.inferred_parameters named engine .buffer
  cases answered.symm.trans step
  obtain ⟨err, failed, -⟩ | ⟨n, c, e', returned, params, -, there, calls⟩ := outcome
  · cases failed
  rw [vars] at params calls
  obtain ⟨x, invoked, evaluated⟩ := calls e' c [5, 3] .refl .refl rfl
  refine ⟨_, n, c, e', step, returned, params, there, invoked.trans ?_⟩
  refine (evaluated (by decide) _ ?_).symm.trans value
  rintro (_ | _ | n) v param
  · cases param
    rfl
  · cases param
    rfl
  · cases param

end ExprCompiler
