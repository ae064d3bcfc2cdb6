import ExprCompiler.Proofs.ImportTables
import ExprCompiler.Proofs.Sites
import Mathlib.Tactic.Tauto

/-! What lowering accepts, and what it says when it refuses. Along the walk the
imports record which argument count the calls seen so far have fixed; a node met
again brings no place that was not judged before. So the walk over a graph ends
as the judgement of the places of its tree does. -/
namespace ExprCompiler

namespace Variable

theorem firstRepeated?_eq_some_iff {seen : List Nat} {params : List Variable} {v : Variable} :
    firstRepeated? seen params = some v ↔
      ∃ before after, params = before ++ v :: after ∧ (before.map (·.id)).Nodup ∧
        (∀ w ∈ before, w.id ∉ seen) ∧ (v.id ∈ seen ∨ v.id ∈ before.map (·.id)) := by
  induction params generalizing seen with
  | nil => simp [firstRepeated?]
  | cons w ws ih =>
    rw [firstRepeated?]
    split
    · next repeated =>
      constructor
      · intro same
        cases same
        exact ⟨[], ws, rfl, by simp, by simp, .inl repeated⟩
      · rintro ⟨before, after, split, -, unseen, -⟩
        cases before with
        | nil => simp_all
        | cons u before =>
          cases split
          exact absurd repeated (unseen w (by simp))
    · next fresh =>
      rw [ih]
      constructor
      · rintro ⟨before, after, rfl, distinct, unseen, again⟩
        refine ⟨w :: before, after, rfl, ?_, ?_, ?_⟩
        · rw [List.map_cons, List.nodup_cons]
          refine ⟨fun repeated => ?_, distinct⟩
          obtain ⟨u, hu, same⟩ := List.mem_map.mp repeated
          exact unseen u hu (by simp [same])
        · intro u hu
          cases List.mem_cons.mp hu with
          | inl same => exact same ▸ fresh
          | inr inside => exact fun seen => unseen u inside (by simp [seen])
        · simp only [List.mem_cons, List.map_cons] at again ⊢
          tauto
      · rintro ⟨before, after, split, distinct, unseen, again⟩
        cases before with
        | nil => simp_all
        | cons u before =>
          cases split
          rw [List.map_cons, List.nodup_cons] at distinct
          refine ⟨before, after, rfl, distinct.2, fun u hu => ?_, ?_⟩
          · intro seen
            cases List.mem_cons.mp seen with
            | inl same => exact distinct.1 (List.mem_map.mpr ⟨u, hu, same⟩)
            | inr seen => exact unseen u (by simp [hu]) seen
          · simp only [List.mem_cons, List.map_cons] at again ⊢
            tauto

theorem firstRepeated?_eq_none_iff {seen : List Nat} {params : List Variable} :
    firstRepeated? seen params = none ↔
      (params.map (·.id)).Nodup ∧ ∀ w ∈ params, w.id ∉ seen := by
  induction params generalizing seen with
  | nil => simp [firstRepeated?]
  | cons w ws ih =>
    rw [firstRepeated?]
    split
    · next repeated => simp [repeated]
    · next fresh =>
      rw [ih, List.map_cons, List.nodup_cons]
      simp only [List.mem_cons, not_or, List.mem_map, not_exists, not_and, forall_eq_or_imp, fresh,
        not_false_eq_true, true_and]
      constructor
      · rintro ⟨distinct, unseen⟩
        exact ⟨⟨fun u hu => (unseen u hu).1, distinct⟩, fun u hu => (unseen u hu).2⟩
      · rintro ⟨⟨apart, distinct⟩, unseen⟩
        exact ⟨distinct, fun u hu => ⟨apart u hu, unseen u hu⟩⟩

theorem firstRepeated?_nil_eq_some_iff {params : List Variable} {v : Variable} :
    firstRepeated? [] params = some v ↔
      ∃ before after, params = before ++ v :: after ∧ (before.map (·.id)).Nodup ∧
        v.id ∈ before.map (·.id) := by
  rw [firstRepeated?_eq_some_iff]
  simp

theorem firstRepeated?_nil_eq_none_iff {params : List Variable} :
    firstRepeated? [] params = none ↔ (params.map (·.id)).Nodup := by
  rw [firstRepeated?_eq_none_iff]
  simp

end Variable

namespace Lowering

variable {g : Graph} {t : SymbolTable} {params : List Variable}

def Records (s : Lowering) (earlier : List Site) : Prop :=
  ∀ name, s.imports.lookup name = Site.declared? earlier name

theorem records_start (arity : Nat) : Records (start arity) [] := fun _ => rfl

theorem addImport_eq {s : Lowering} {name : String} {passed : Nat}
    (agrees : ∀ n, s.imports.lookup name = some n → n = passed) :
    ∃ s', s.addImport name passed = .ok s' ∧
      ∀ other, s'.imports.lookup other =
        (s.imports.lookup other).or (if name = other then some passed else none) := by
  rw [lookup_imports] at agrees
  unfold addImport
  cases found : s.imported.lookup name with
  | some known =>
    refine ⟨s, by simp [agrees known.arity (by rw [found]; rfl)], fun other => ?_⟩
    split
    · next same => rw [← same, lookup_imports, found, Option.map_some, Option.some_or]
    · rw [Option.or_none]
  | none =>
    refine ⟨_, rfl, fun other => ?_⟩
    rw [imports_newImport, List.lookup_append]
    by_cases same : name = other
    · simp [same]
    · have apart : (other == name) = false := beq_eq_false_iff_ne.mpr (Ne.symm same)
      simp [same, List.lookup_cons, apart]

theorem addImport_of_ne {s : Lowering} {name : String} {passed n : Nat}
    (found : s.imports.lookup name = some n) (other : n ≠ passed) :
    s.addImport name passed = .error (.lowering (.declaredArity name n passed)) := by
  rw [lookup_imports] at found
  obtain ⟨known, here, rfl⟩ := Option.map_eq_some_iff.mp found
  unfold addImport
  rw [here]
  exact if_neg other

theorem declare_eq {s : Lowering} {earlier : List Site} (records : s.Records earlier)
    (t : SymbolTable) (params : List Variable) (name : String) (passed : Nat) :
    match Site.check t params earlier (.call name passed) with
    | .ok later => ∃ s', s.declare t name passed = .ok s' ∧ s'.Records later
    | .error e => s.declare t name passed = .error e := by
  have fixed := records name
  unfold Site.check
  cases judged : (Site.call name passed).fault? t params earlier with
  | none =>
    obtain ⟨one, two, known, first⟩ := Site.fault?_call_eq_none_iff.mp judged
    rw [← fixed] at first
    obtain ⟨s', added, found⟩ := addImport_eq first
    refine ⟨s', ?_, fun other => ?_⟩
    · rw [← added, declare, if_neg (by omega)]
      cases known? : t.known? name with
      | none => rfl
      | some f => simp [known f known?]
    · rw [found, records, Site.declared?_append]
      simp [Site.declared?]
  | some e =>
    rw [Site.fault?] at judged
    rw [declare]
    split at judged
    · next unsupported =>
      cases judged
      exact if_pos unsupported
    · next supported =>
      rw [if_neg supported]
      cases Option.or_eq_some_iff.mp judged with
      | inl conflict =>
        obtain ⟨n, arity, other, rfl⟩ := Site.conflict?_eq_some_iff.mp conflict
        obtain ⟨f, known, rfl⟩ := Option.map_eq_some_iff.mp arity
        rw [known]
        exact if_neg other
      | inr later =>
        obtain ⟨agrees, conflict⟩ := later
        obtain ⟨n, first, other, rfl⟩ := Site.conflict?_eq_some_iff.mp conflict
        rw [← fixed] at first
        rw [Site.conflict?_eq_none_iff] at agrees
        have refused := addImport_of_ne first other
        cases known : t.known? name with
        | none => exact refused
        | some f =>
          have same : f.arity = passed := agrees f.arity (by rw [known]; rfl)
          simp [same, refused]

theorem foldlM_check_single (earlier : List Site) (x : Site) :
    [x].foldlM (Site.check t params) earlier = Site.check t params earlier x :=
  bind_pure (Site.check t params earlier x)

theorem runs_enter {s : Lowering} {earlier : List Site} (records : s.Records earlier) {i : Nat}
    (noVar : ∀ v, g.node i ≠ .var v) :
    Runs (step g t params) s [.enter i] (fun later s' => s'.Records later)
      ((g.node i).sites.foldlM (Site.check t params) earlier) := by
  cases kind : g.node i with
  | var v => exact absurd kind (noVar v)
  | call name args =>
    have judged := declare_eq records t params name args.length
    have taken : step g t params s (.enter i) = s.declare t name args.length := by
      simp [step, kind]
    rw [Node.sites, foldlM_check_single]
    apply Runs.single
    · intro later accepted
      rw [accepted] at judged
      obtain ⟨s', declared, records'⟩ := judged
      exact ⟨s', taken.trans declared, records'⟩
    · intro e refused
      rw [refused] at judged
      exact taken.trans judged
  | const _ | neg _ | binary _ _ _ =>
    exact ⟨s, by rw [foldUntil_cons_ok (by simp [step, kind]; rfl)]; rfl, records⟩

theorem step_leave {s : Lowering} {i : Nat} (noVar : ∀ v, g.node i ≠ .var v) :
    ∃ s', step g t params s (.leave i) = .ok s' ∧ s'.imports = s.imports := by
  have emitted : ∃ instr, step g t params s (.leave i) = .ok (s.emit params.length i instr) := by
    cases kind : g.node i with
    | var v => exact absurd kind (noVar v)
    | const _ | neg _ | binary _ _ _ | call _ _ => simp [step, kind]
  obtain ⟨instr, taken⟩ := emitted
  exact ⟨_, taken, rfl⟩

theorem runs_leave_var {s : Lowering} {earlier : List Site} (records : s.Records earlier) {i : Nat}
    {v : Variable} (kind : g.node i = .var v) :
    Runs (step g t params) s [.leave i] (fun later s' => s'.Records later)
      ((g.node i).sites.foldlM (Site.check t params) earlier) := by
  rw [kind, Node.sites, foldlM_check_single]
  cases found : params.findIdx? (·.id = v.id) with
  | some k =>
    have bound : v.id ∈ params.map (·.id) := by
      obtain ⟨hk, same, -⟩ := List.findIdx?_eq_some_iff_getElem.mp found
      exact List.mem_map.mpr ⟨params[k], List.getElem_mem hk, by simpa using same⟩
    rw [Site.check_of_none (Site.fault?_var_eq_none_iff.mpr bound)]
    have taken : step g t params s (.leave i) = .ok { s with value := s.value.set i k } := by
      simp [step, kind, found]
    refine .cons taken (.nil fun name => ?_)
    rw [Site.declared?_append]
    simpa [Site.declared?, imports] using records name
  | none =>
    have unbound : v.id ∉ params.map (·.id) := by
      intro bound
      obtain ⟨w, hw, same⟩ := List.mem_map.mp bound
      simpa [same] using List.findIdx?_eq_none_iff.mp found w hw
    rw [Site.check_of_some (by rw [Site.fault?, if_neg unbound])]
    exact ⟨s, foldUntil_cons_error (by simp [step, kind, found]) []⟩

/-- The walk over some nodes ends as the judgement of the places of their trees
does. The places of the nodes left before were judged already. -/
theorem runs_walks {past new : List Visit} {is : List Nat} (h : g.Walks past is new)
    {s : Lowering} {earlier : List Site} (records : s.Records earlier)
    (faultless : Site.Faultless t params earlier)
    (judged : ∀ j, .leave j ∈ past → ∀ x ∈ (g.expr j).sites, x ∈ earlier) :
    Runs (step g t params) s new (fun later s' => s'.Records later)
      ((is.flatMap fun i => (g.expr i).sites).foldlM (Site.check t params) earlier) := by
  induction h generalizing s earlier with
  | nil => exact .nil records
  | @again past i is rest done _ ih =>
    have known := faultless.append_of_subset (judged i done)
    rw [List.flatMap_cons, List.foldlM_append, Site.foldlM_check_of_faultless known]
    refine .cons rfl (ih ?_ known ?_)
    · intro name
      rw [faultless.declared?_append_of_subset (judged i done)]
      exact records name
    · intro j left x hx
      exact List.mem_append_left _ (judged j (by simpa using left) x hx)
  | @enter past i is below rest fresh operands others ihBelow ih =>
    -- Every node left inside is below this one, so its places are among those of this one.
    have settled {later : List Site} (le : ∀ x ∈ earlier, x ∈ later)
        (own : ∀ x ∈ (g.expr i).sites, x ∈ later) :
        ∀ j, Visit.leave j ∈ past ++ Visit.enter i :: (below ++ [Visit.leave i]) →
          ∀ x ∈ (g.expr j).sites, x ∈ later := by
      intro j left x hx
      have place : .leave j ∈ past ∨ g.Reaches i j := by
        simp only [List.mem_append, List.mem_cons, reduceCtorEq, Visit.leave.injEq, false_or,
          List.not_mem_nil, or_false] at left
        obtain before | inside | same := left
        · exact .inl before
        · obtain ⟨k, hk, path⟩ := operands.reaches_of_leave inside
          exact .inr (path.head hk)
        · exact .inr (same ▸ .refl g i)
      cases place with
      | inl before => exact le x (judged j before x hx)
      | inr path =>
        obtain ⟨k, deeper, here⟩ := (g.mem_sites_iff j x).mp hx
        exact own x ((g.mem_sites_iff i x).mpr ⟨k, path.trans deeper, here⟩)
    rw [List.flatMap_cons, List.foldlM_append]
    by_cases isVar : ∃ v, g.node i = .var v
    · obtain ⟨v, kind⟩ := isVar
      have noOperands : (g.node i).operands = [] := by rw [kind]; rfl
      have noBelow : below = [] := (noOperands ▸ operands).eq_nil
      have only : (g.expr i).sites = (g.node i).sites := by rw [g.sites_expr, noOperands]; simp
      subst noBelow
      rw [only]
      refine .cons (by simp [step, kind]; rfl) ?_
      refine (runs_leave_var records kind).append fun later s' ran records' => ?_
      obtain ⟨rfl, clear⟩ := Site.faultless_of_foldlM_check faultless ran
      refine ih records' clear (settled ?_ ?_)
      · exact fun x hx => List.mem_append_left _ hx
      · exact fun x hx => List.mem_append_right _ (only ▸ hx)
    · have noVar : ∀ v, g.node i ≠ .var v := fun v kind => isVar ⟨v, kind⟩
      have parts := g.sites_expr i
      rw [parts, List.foldlM_append, bind_assoc]
      refine (runs_enter records noVar).append fun entered s₁ ran₁ records₁ => ?_
      obtain ⟨rfl, clear₁⟩ := Site.faultless_of_foldlM_check faultless ran₁
      refine (ihBelow records₁ clear₁ ?_).append fun later s₂ ran₂ records₂ => ?_
      · intro j left x hx
        exact List.mem_append_left _ (judged j (by simpa using left) x hx)
      obtain ⟨rfl, clear₂⟩ := Site.faultless_of_foldlM_check clear₁ ran₂
      obtain ⟨s₃, taken, same⟩ := step_leave (t := t) (g := g) (s := s₂) noVar
      refine .cons taken (ih ?_ clear₂ (settled ?_ ?_))
      · intro name
        rw [same]
        exact records₂ name
      · intro x hx
        simp [hx]
      · intro x hx
        rw [parts] at hx
        simpa [or_assoc] using Or.inr (List.mem_append.mp hx)

end Lowering

theorem Strategy.resolve_of_tooMany {n : Nat} (many : 8 < n) :
    positional.resolve n = .error (.lowering (.tooManyParameters n)) :=
  if_neg (Nat.not_le.mpr many)

theorem Strategy.exists_resolve {s : Strategy} {n : Nat} (fits : ¬ (s = .positional ∧ 8 < n)) :
    ∃ used, s.resolve n = .ok used := by
  cases s with
  | auto => exact ⟨_, rfl⟩
  | buffer => exact ⟨_, rfl⟩
  | positional =>
    have few : n ≤ maxPositional := Nat.not_lt.mp fun many => fits ⟨rfl, many⟩
    exact ⟨.positional, if_pos few⟩

namespace Graph

def lowered (g : Graph) (root : Nat) (folded : Bool) : Graph × Nat :=
  if folded then g.foldConstants root else (g, root)

theorem sites_lowered (g : Graph) (root : Nat) (folded : Bool) :
    ((g.lowered root folded).1.expr (g.lowered root folded).2).sites = (g.expr root).sites := by
  cases folded with
  | false => rfl
  | true =>
    show ((g.foldConstants root).1.expr (g.foldConstants root).2).sites = _
    rw [expr_foldConstants, sites_foldConstants]

structure Acceptable (g : Graph) (root : Nat) (t : SymbolTable) (params : List Variable)
    (strategy : Strategy) : Prop where
  fits : ¬ (strategy = .positional ∧ 8 < params.length)
  distinct : (params.map (·.id)).Nodup
  bound : ∀ i v, g.Reaches root i → g.node i = .var v → v.id ∈ params.map (·.id)
  supported : ∀ i name args, g.Reaches root i → g.node i = .call name args →
    args.length = 1 ∨ args.length = 2
  known : ∀ i name args f, g.Reaches root i → g.node i = .call name args →
    t.known? name = some f → f.arity = args.length
  agreed : ∀ i j name args args', g.Reaches root i → g.Reaches root j →
    g.node i = .call name args → g.node j = .call name args' → args.length = args'.length

/-- The error of the first check that fails: of the strategy, of the parameters
in order, of the places of the tree in pre-order. -/
inductive Refuses (g : Graph) (root : Nat) (t : SymbolTable) (params : List Variable)
    (strategy : Strategy) : Error → Prop
  | strategy (positional : strategy = .positional) (many : 8 < params.length) :
      Refuses g root t params strategy (.lowering (.tooManyParameters params.length))
  | parameter {before after : List Variable} {v : Variable}
      (fits : ¬ (strategy = .positional ∧ 8 < params.length))
      (split : params = before ++ v :: after) (distinct : (before.map (·.id)).Nodup)
      (repeated : v.id ∈ before.map (·.id)) :
      Refuses g root t params strategy (.lowering (.repeatedParameter v))
  | site {before after : List Site} {x : Site} {e : Error}
      (fits : ¬ (strategy = .positional ∧ 8 < params.length))
      (distinct : (params.map (·.id)).Nodup)
      (split : (g.expr root).sites = before ++ x :: after)
      (clear : Site.Faultless t params before) (wrong : x.fault? t params before = some e) :
      Refuses g root t params strategy e

theorem mem_sites_var_iff (g : Graph) (root : Nat) (v : Variable) :
    .var v ∈ (g.expr root).sites ↔ ∃ i, g.Reaches root i ∧ g.node i = .var v := by
  rw [g.mem_sites_iff]
  refine exists_congr fun i => and_congr_right fun _ => ?_
  cases g.node i <;> simp [Node.sites, eq_comm]

theorem mem_sites_call_iff (g : Graph) (root : Nat) (name : String) (n : Nat) :
    .call name n ∈ (g.expr root).sites ↔
      ∃ i args, g.Reaches root i ∧ g.node i = .call name args ∧ args.length = n := by
  rw [g.mem_sites_iff]
  refine exists_congr fun i => ?_
  cases g.node i with
  | call other args =>
    simp only [Node.sites, List.mem_singleton, Site.call.injEq, Node.call.injEq]
    constructor
    · rintro ⟨below, rfl, rfl⟩
      exact ⟨args, below, ⟨rfl, rfl⟩, rfl⟩
    · rintro ⟨args', below, ⟨rfl, rfl⟩, rfl⟩
      exact ⟨below, rfl, rfl⟩
  | var _ | const _ | neg _ | binary _ _ _ => simp [Node.sites]

theorem acceptable_iff (g : Graph) (root : Nat) (t : SymbolTable) (params : List Variable)
    (strategy : Strategy) :
    g.Acceptable root t params strategy ↔
      ¬ (strategy = .positional ∧ 8 < params.length) ∧ (params.map (·.id)).Nodup ∧
        Site.Faultless t params (g.expr root).sites := by
  rw [Site.faultless_iff]
  simp only [mem_sites_var_iff, mem_sites_call_iff]
  constructor
  · intro h
    refine ⟨h.fits, h.distinct, ?_, ?_, ?_⟩
    · rintro v ⟨i, below, kind⟩
      exact h.bound i v below kind
    · rintro name n ⟨i, args, below, kind, rfl⟩
      have count := h.supported i name args below kind
      exact ⟨by omega, by omega, fun f hf => h.known i name args f below kind hf⟩
    · rintro name n m ⟨i, args, below, kind, rfl⟩ ⟨j, args', below', kind', rfl⟩
      exact h.agreed i j name args args' below below' kind kind'
  · rintro ⟨fits, distinct, bound, calls, agreed⟩
    exact
      { fits, distinct
        bound := fun i v below kind => bound v ⟨i, below, kind⟩
        supported := fun i name args below kind => by
          have := calls name args.length ⟨i, args, below, kind, rfl⟩
          omega
        known := fun i name args f below kind hf =>
          (calls name args.length ⟨i, args, below, kind, rfl⟩).2.2 f hf
        agreed := fun i j name args args' below below' kind kind' =>
          agreed name _ _ ⟨i, args, below, kind, rfl⟩ ⟨j, args', below', kind', rfl⟩ }

section Lower

variable (g : Graph) (root : Nat) (folded : Bool) (t : SymbolTable) (id : Nat)
  {params : List Variable} {strategy used : Strategy}

theorem lower_eq_walk (resolved : strategy.resolve params.length = .ok used)
    (distinct : (params.map (·.id)).Nodup) :
    g.lower root folded t id params strategy =
      match foldUntil (Lowering.step (g.lowered root folded).1 t params) (.start params.length)
        ((g.lowered root folded).1.visits (g.lowered root folded).2) with
      | (s, none) => ⟨s.notes, .ok (s.finish id params.length (g.lowered root folded).2 used)⟩
      | (s, some e) => ⟨s.notes, .error e⟩ := by
  have noneRepeated := Variable.firstRepeated?_nil_eq_none_iff.mpr distinct
  unfold lower
  rw [resolved, noneRepeated]
  rfl

theorem lower_result (resolved : strategy.resolve params.length = .ok used)
    (distinct : (params.map (·.id)).Nodup) :
    match (g.expr root).sites.foldlM (Site.check t params) [] with
    | .ok _ => ∃ u, (g.lower root folded t id params strategy).result = .ok u
    | .error e => (g.lower root folded t id params strategy).result = .error e := by
  have clear : Site.Faultless t params [] := .nil
  have run := Lowering.runs_walks
    ((g.lowered root folded).1.walks_visits (g.lowered root folded).2)
    (Lowering.records_start params.length) clear (by simp)
  rw [List.flatMap_singleton, sites_lowered] at run
  rw [lower_eq_walk g root folded t id resolved distinct]
  cases judged : (g.expr root).sites.foldlM (Site.check t params) [] with
  | ok later =>
    rw [judged] at run
    obtain ⟨s, ran, -⟩ := run
    exact ⟨_, by rw [ran]⟩
  | error e =>
    rw [judged] at run
    obtain ⟨s, ran⟩ := run
    rw [ran]

theorem lower_error_iff (e : Error) :
    (g.lower root folded t id params strategy).result = .error e ↔
      g.Refuses root t params strategy e := by
  by_cases fits : strategy = .positional ∧ 8 < params.length
  · obtain ⟨rfl, many⟩ := fits
    have refused : (g.lower root folded t id params .positional).result =
        .error (.lowering (.tooManyParameters params.length)) := by
      rw [lower, Strategy.resolve_of_tooMany many]
    rw [refused]
    constructor
    · intro same
      cases same
      exact .strategy rfl many
    · intro refuses
      cases refuses with
      | strategy _ _ => rfl
      | parameter fits _ _ _ => exact absurd ⟨rfl, many⟩ fits
      | site fits _ _ _ _ => exact absurd ⟨rfl, many⟩ fits
  · obtain ⟨used, resolved⟩ := Strategy.exists_resolve fits
    by_cases distinct : (params.map (·.id)).Nodup
    · have noneRepeated := Variable.firstRepeated?_nil_eq_none_iff.mpr distinct
      have result := lower_result g root folded t id resolved distinct
      have judgement : (g.expr root).sites.foldlM (Site.check t params) [] = .error e ↔
          g.Refuses root t params strategy e := by
        rw [Site.foldlM_check_eq_error_iff]
        constructor
        · rintro ⟨before, x, after, split, clear, wrong⟩
          exact .site fits distinct split clear wrong
        · intro refuses
          cases refuses with
          | strategy positional many => exact absurd ⟨positional, many⟩ fits
          | parameter _ split distinct' repeated =>
            have found := Variable.firstRepeated?_nil_eq_some_iff.mpr
              ⟨_, _, split, distinct', repeated⟩
            rw [noneRepeated] at found
            cases found
          | site _ _ split clear wrong => exact ⟨_, _, _, split, clear, wrong⟩
      rw [← judgement]
      cases judged : (g.expr root).sites.foldlM (Site.check t params) [] with
      | ok later =>
        rw [judged] at result
        obtain ⟨u, lowered⟩ := result
        simp [lowered]
      | error e' =>
        rw [judged] at result
        rw [result, Except.error.injEq, Except.error.injEq]
    · cases found : Variable.firstRepeated? [] params with
      | none => exact absurd (Variable.firstRepeated?_nil_eq_none_iff.mp found) distinct
      | some v =>
        have refused : (g.lower root folded t id params strategy).result =
            .error (.lowering (.repeatedParameter v)) := by
          rw [lower, resolved, found]
        rw [refused]
        constructor
        · intro same
          cases same
          obtain ⟨before, after, split, distinct', repeated⟩ :=
            Variable.firstRepeated?_nil_eq_some_iff.mp found
          exact .parameter fits split distinct' repeated
        · intro refuses
          cases refuses with
          | strategy positional many => exact absurd ⟨positional, many⟩ fits
          | parameter _ split distinct' repeated =>
            have found' := Variable.firstRepeated?_nil_eq_some_iff.mpr
              ⟨_, _, split, distinct', repeated⟩
            rw [found] at found'
            cases found'
            rfl
          | site _ distinct' _ _ _ => exact absurd distinct' distinct

theorem lower_ok_iff :
    (∃ u, (g.lower root folded t id params strategy).result = .ok u) ↔
      g.Acceptable root t params strategy := by
  rw [acceptable_iff]
  constructor
  · rintro ⟨u, accepted⟩
    have none : ∀ e, ¬ g.Refuses root t params strategy e := by
      intro e refuses
      rw [(lower_error_iff g root folded t id e).mpr refuses] at accepted
      cases accepted
    have fits : ¬ (strategy = .positional ∧ 8 < params.length) :=
      fun ⟨positional, many⟩ => none _ (.strategy positional many)
    have distinct : (params.map (·.id)).Nodup := by
      cases found : Variable.firstRepeated? [] params with
      | none => exact Variable.firstRepeated?_nil_eq_none_iff.mp found
      | some v =>
        obtain ⟨before, after, split, distinct, repeated⟩ :=
          Variable.firstRepeated?_nil_eq_some_iff.mp found
        exact absurd (.parameter fits split distinct repeated) (none _)
    refine ⟨fits, distinct, ?_⟩
    cases judged : (g.expr root).sites.foldlM (Site.check t params) [] with
    | ok later =>
      obtain ⟨rfl, clear⟩ := Site.faultless_of_foldlM_check .nil judged
      exact clear
    | error e =>
      obtain ⟨before, x, after, split, clear, wrong⟩ := Site.foldlM_check_eq_error_iff.mp judged
      exact absurd (.site fits distinct split clear wrong) (none e)
  · rintro ⟨fits, distinct, clear⟩
    obtain ⟨used, resolved⟩ := Strategy.exists_resolve fits
    have result := lower_result g root folded t id resolved distinct
    rwa [Site.foldlM_check_nil_of_faultless clear] at result

/-- Lowering accepts exactly what it should and otherwise gives the error of the
first check that fails. No node is entered while it is open: there is no cycle
to report. -/
theorem lower_accepts_or_first_refusal (strategy : Strategy) (params : List Variable) :
    ((∃ u, (g.lower root folded t id params strategy).result = .ok u) ↔
      g.Acceptable root t params strategy) ∧
    (∀ e, (g.lower root folded t id params strategy).result = .error e ↔
      g.Refuses root t params strategy e) ∧
    ∀ before i after, (g.lowered root folded).1.visits (g.lowered root folded).2 =
      before ++ .enter i :: after → .enter i ∉ before := by
  refine ⟨lower_ok_iff g root folded t id, fun e => lower_error_iff g root folded t id e, ?_⟩
  intro before i after split
  have ordered := (g.lowered root folded).1.ordered_visits (g.lowered root folded).2
  rw [split] at ordered
  exact ordered.allows

end Lower

end Graph
end ExprCompiler
