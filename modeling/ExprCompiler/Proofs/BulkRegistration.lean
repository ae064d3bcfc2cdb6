import ExprCompiler.Proofs.SymbolHistory

/-! Registering many functions at once. The table that decides which records are passed
over grows on the way, so of several records of one name only the first can be added, and
none under a name that was taken before. The one thing that stops it is the name of a
built-in function: such a name is never registered, hence never passed over. -/
namespace ExprCompiler

namespace SymbolTable

def extend (t : SymbolTable) (is : List Intrinsic) : SymbolTable :=
  { t with registered := t.registered ++ is }

@[simp] theorem extend_nil (t : SymbolTable) : t.extend [] = t := by
  simp [extend]

theorem extend_cons (t : SymbolTable) (i : Intrinsic) (is : List Intrinsic) :
    t.extend (i :: is) = (t.extend [i]).extend is := by
  simp [extend]

theorem registered?_extend (t : SymbolTable) (is : List Intrinsic) (name : String) :
    (t.extend is).registered? name = (t.registered? name).or (is.find? (·.name = name)) := by
  simp [extend, registered?, List.find?_append]

/-- What a list of records has to add to a table: every name that is not registered yet
once, with the first record of that name. -/
structure Adds (t : SymbolTable) (records added : List Intrinsic) : Prop where
  distinct : (added.map (·.name)).Nodup
  names : ∀ name, name ∈ added.map (·.name) ↔
    t.registered? name = none ∧ name ∈ records.map (·.name)
  first : ∀ i ∈ added, records.find? (·.name = i.name) = some i

namespace Adds

variable {t : SymbolTable} {i : Intrinsic} {records added : List Intrinsic}

theorem nil (t : SymbolTable) : t.Adds [] [] := ⟨.nil, by simp, by simp⟩

theorem skip (h : t.Adds records added) (taken : (t.registered? i.name).isSome) :
    t.Adds (i :: records) added := by
  have free {name : String} (unregistered : t.registered? name = none) : i.name ≠ name := by
    rintro rfl
    rw [unregistered] at taken
    cases taken
  refine ⟨h.distinct, fun name => ?_, fun j hj => ?_⟩
  · rw [h.names, List.map_cons, List.mem_cons]
    constructor
    · exact fun ⟨unregistered, later⟩ => ⟨unregistered, .inr later⟩
    · exact fun ⟨unregistered, named⟩ =>
        ⟨unregistered, named.resolve_left (free unregistered).symm⟩
  · have unregistered := ((h.names j.name).mp (List.mem_map_of_mem hj)).1
    rw [List.find?_cons_of_neg (by simpa using free unregistered)]
    exact h.first j hj

theorem cons (h : (t.extend [i]).Adds records added) (unregistered : t.registered? i.name = none) :
    t.Adds (i :: records) (i :: added) := by
  have later (name : String) : name ∈ added.map (·.name) ↔
      (t.registered? name = none ∧ i.name ≠ name) ∧ name ∈ records.map (·.name) := by
    rw [h.names, registered?_extend, Option.or_eq_none_iff, List.find?_eq_none]
    simp
  refine ⟨?_, fun name => ?_, fun j hj => ?_⟩
  · rw [List.map_cons, List.nodup_cons]
    exact ⟨fun again => ((later i.name).mp again).1.2 rfl, h.distinct⟩
  · rw [List.map_cons, List.map_cons, List.mem_cons, List.mem_cons, later]
    by_cases same : name = i.name
    · simp [same, unregistered]
    · simp [same, Ne.symm same]
  · rcases List.mem_cons.mp hj with rfl | hj
    · simp
    · have other := ((later j.name).mp (List.mem_map_of_mem hj)).1.2
      rw [List.find?_cons_of_neg (by simpa using other)]
      exact h.first j hj

theorem registered? (h : t.Adds records added) (name : String) :
    (t.extend added).registered? name =
      (t.registered? name).or (records.find? (·.name = name)) := by
  rw [registered?_extend]
  cases unregistered : t.registered? name with
  | some earlier => rfl
  | none =>
    rw [Option.none_or, Option.none_or]
    cases found : added.find? (·.name = name) with
    | some i =>
      have named : i.name = name := by simpa using List.find?_some found
      rw [← h.first i (List.mem_of_find?_eq_some found), named]
    | none =>
      have absent : name ∉ added.map (·.name) := by simpa using found
      rw [h.names, unregistered] at absent
      symm
      simpa using absent

end Adds

theorem find?_of_builtin {p : Platform} {is : List Intrinsic} {name : String} {f : Intrinsic}
    (fits : ∀ i ∈ is, Fits p i) (built : p.builtin? name = some f) :
    is.find? (·.name = name) = none := by
  rw [List.find?_eq_none]
  intro i hi same
  have plain := (fits i hi).2
  rw [of_decide_eq_true same, built] at plain
  cases plain

section RegisterAll

variable {t : SymbolTable} {i : Intrinsic}

theorem registerAll_cons_of_registered (taken : (t.registered? i.name).isSome)
    (is : List Intrinsic) : t.registerAll (i :: is) = t.registerAll is := by
  rw [registerAll, if_pos taken]

theorem registerAll_cons_of_fits (fits : Fits t.platform i)
    (unregistered : t.registered? i.name = none) (is : List Intrinsic) :
    t.registerAll (i :: is) = (((t.extend [i]).registerAll is).1,
      ((t.extend [i]).registerAll is).2.map (· + 1)) := by
  have accepted : t.register i = (t.extend [i], .ok ()) :=
    register_eq_ok_iff.mpr ⟨fits, unregistered, rfl⟩
  rw [registerAll, if_neg (by simp [unregistered]), accepted]

theorem registerAll_cons_of_builtin {f : Intrinsic} (supported : i.arity = 1 ∨ i.arity = 2)
    (built : t.platform.builtin? i.name = some f) (unregistered : t.registered? i.name = none)
    (is : List Intrinsic) :
    t.registerAll (i :: is) = (t, .error (.functionExists i.name f.arity)) := by
  have refused : t.register i = (t, .error (.functionExists i.name f.arity)) := by
    rw [register, if_neg (by omega), known?, built, Option.some_or]
  rw [registerAll, if_neg (by simp [unregistered]), refused]

theorem exists_adds_registerAll (t : SymbolTable) {before : List Intrinsic}
    (fits : ∀ i ∈ before, Fits t.platform i) :
    ∃ added, t.Adds before added ∧ ∀ rest, t.registerAll (before ++ rest) =
      (((t.extend added).registerAll rest).1,
        ((t.extend added).registerAll rest).2.map (· + added.length)) := by
  -- The table grows from record to record, so the induction is for every table.
  induction before generalizing t with
  | nil =>
    refine ⟨[], .nil t, fun rest => ?_⟩
    rw [extend_nil, List.nil_append]
    cases counted : (t.registerAll rest).2 <;> simp [← counted, Except.map]
  | cons i before ih =>
    have later : ∀ j ∈ before, Fits t.platform j := fun j hj => fits j (by simp [hj])
    cases unregistered : t.registered? i.name with
    | some earlier =>
      have taken : (t.registered? i.name).isSome := by rw [unregistered]; rfl
      obtain ⟨added, adds, ran⟩ := ih t later
      refine ⟨added, adds.skip taken, fun rest => ?_⟩
      rw [List.cons_append, registerAll_cons_of_registered taken, ran]
    | none =>
      obtain ⟨added, adds, ran⟩ := ih (t.extend [i]) later
      refine ⟨i :: added, adds.cons unregistered, fun rest => ?_⟩
      rw [List.cons_append, registerAll_cons_of_fits (fits i (by simp)) unregistered, ran,
        extend_cons t i added]
      cases (((t.extend [i]).extend added).registerAll rest).2 with
      | error e => rfl
      | ok n => simp [Except.map, Nat.add_assoc]

theorem exists_adds_of_fits (t : SymbolTable) {records : List Intrinsic}
    (fits : ∀ i ∈ records, Fits t.platform i) :
    ∃ added, t.registerAll records = (t.extend added, .ok added.length) ∧
      t.Adds records added := by
  obtain ⟨added, adds, ran⟩ := t.exists_adds_registerAll fits
  have ran := ran []
  rw [List.append_nil] at ran
  exact ⟨added, by simpa [registerAll, Except.map] using ran, adds⟩

theorem registerAll_of_registered {is : List Intrinsic}
    (taken : ∀ i ∈ is, (t.registered? i.name).isSome) : t.registerAll is = (t, .ok 0) := by
  induction is with
  | nil => rfl
  | cons i is ih =>
    rw [registerAll_cons_of_registered (taken i (by simp))]
    exact ih fun j hj => taken j (by simp [hj])

end RegisterAll

namespace Recalls

variable {p : Platform} {host : Bool} {log : List Deed} {t : SymbolTable} {f : Intrinsic}

theorem exists_adds_of_builtin (h : Recalls p host log t) {before after : List Intrinsic}
    {i : Intrinsic} (fits : ∀ j ∈ before, Fits p j) (supported : i.arity = 1 ∨ i.arity = 2)
    (built : p.builtin? i.name = some f) :
    ∃ added, t.registerAll (before ++ i :: after) =
        (t.extend added, .error (.functionExists i.name f.arity)) ∧ t.Adds before added := by
  obtain ⟨added, adds, ran⟩ := t.exists_adds_registerAll (h.platform.symm ▸ fits)
  -- The name was not there at first, and no record before this one has it.
  have unregistered : (t.extend added).registered? i.name = none := by
    rw [adds.registered?, SymbolTable.registered?, find?_of_builtin h.fits built,
      find?_of_builtin fits built, Option.none_or]
  refine ⟨added, ?_, adds⟩
  rw [ran, registerAll_cons_of_builtin supported (h.platform ▸ built) unregistered]
  rfl

theorem exists_error_registerAll_iff (h : Recalls p host log t) {records : List Intrinsic}
    (supported : ∀ i ∈ records, i.arity = 1 ∨ i.arity = 2) :
    (∃ e, (t.registerAll records).2 = .error e) ↔ ∃ i ∈ records, (p.builtin? i.name).isSome := by
  constructor
  · rintro ⟨e, failed⟩
    by_contra clash
    have plain : ∀ i ∈ records, p.builtin? i.name = none := by simpa using clash
    obtain ⟨added, ran, -⟩ := t.exists_adds_of_fits fun i hi =>
      ⟨supported i hi, h.platform.symm ▸ plain i hi⟩
    rw [ran] at failed
    cases failed
  · rintro ⟨i, hi, built⟩
    cases found : records.find? fun i => (p.builtin? i.name).isSome with
    | none => exact absurd built (by simpa using List.find?_eq_none.mp found i hi)
    | some first =>
      obtain ⟨built, before, after, rfl, plain⟩ := List.find?_eq_some_iff_append.mp found
      obtain ⟨f, built⟩ := Option.isSome_iff_exists.mp built
      have fits : ∀ j ∈ before, Fits p j := fun j hj =>
        ⟨supported j (by simp [hj]), by simpa using plain j hj⟩
      obtain ⟨added, ran, -⟩ := h.exists_adds_of_builtin fits (supported first (by simp)) built
      exact ⟨_, congrArg Prod.snd ran⟩

end Recalls

/-- Registering a list of records fails if and only if one of them has the name of a
built-in function. Then the names before the first such record that were not registered
have been added, and nothing else. Otherwise all names that were not registered are added,
and their number is returned: a name stands for what was registered under it before, else
for its first record. Other names are left alone, and a second time nothing is added. -/
theorem registerAll_adds_first_records {p : Platform} {host : Bool}
    {operations : List Operation} {t : SymbolTable} {log : List Deed}
    (made : (new p host).history operations = (t, log)) {records : List Intrinsic}
    (supported : ∀ i ∈ records, i.arity = 1 ∨ i.arity = 2) :
    let t' := (t.registerAll records).1
    ((∃ e, (t.registerAll records).2 = .error e) ↔
      ∃ i ∈ records, (p.builtin? i.name).isSome) ∧
    (∀ before i after f, records = before ++ i :: after →
      (∀ j ∈ before, p.builtin? j.name = none) → p.builtin? i.name = some f →
      ∃ added, t.registerAll records =
          (t.extend added, .error (.functionExists i.name f.arity)) ∧ t.Adds before added) ∧
    ((∀ i ∈ records, p.builtin? i.name = none) →
      (∃ added, t.registerAll records = (t.extend added, .ok added.length) ∧
        t.Adds records added) ∧
      (∀ i ∈ records, (t'.known? i.name).isSome ∧
        t'.known? i.name = (t.registered? i.name).or (records.find? (·.name = i.name))) ∧
      (∀ name, (∀ i ∈ records, i.name ≠ name) → t'.registered? name = t.registered? name) ∧
      t'.registerAll records = (t', .ok 0)) := by
  have h : Recalls p host log t := by
    have := (Recalls.new p host).history operations
    rwa [made, List.nil_append] at this
  refine ⟨h.exists_error_registerAll_iff supported, ?_, fun plain => ?_⟩
  · rintro before i after f rfl plain built
    have fits : ∀ j ∈ before, Fits p j := fun j hj => ⟨supported j (by simp [hj]), plain j hj⟩
    exact h.exists_adds_of_builtin fits (supported i (by simp)) built
  · obtain ⟨added, ran, adds⟩ := t.exists_adds_of_fits fun i hi =>
      ⟨supported i hi, h.platform.symm ▸ plain i hi⟩
    have entry (name : String) : (t.registerAll records).1.registered? name =
        (t.registered? name).or (records.find? (·.name = name)) := by
      rw [ran]
      exact adds.registered? name
    have taken (i : Intrinsic) (hi : i ∈ records) :
        ((t.registerAll records).1.registered? i.name).isSome := by
      rw [entry, Option.isSome_or, List.find?_isSome.mpr ⟨i, hi, by simp⟩, Bool.or_true]
    refine ⟨⟨added, ran, adds⟩, fun i hi => ?_, fun name other => ?_,
      registerAll_of_registered taken⟩
    · have same : (t.registerAll records).1.platform = p := by
        rw [ran]
        exact h.platform
      rw [known?, same, plain i hi, Option.none_or]
      exact ⟨taken i hi, entry i.name⟩
    · rw [entry, List.find?_eq_none.mpr (by simpa using other), Option.or_none]

def halfAndTriple : List Intrinsic :=
  [⟨"half", 2, Catalogue.avg⟩, ⟨"triple", 1, Catalogue.triple⟩, ⟨"triple", 2, Catalogue.minus⟩]

/-- The name that was registered before keeps its function, and the other one gets its
first record. A built-in name behind them changes neither, but a record behind that is not
added. -/
theorem halfAndTriple_adds_first_records :
    ∃ t log t', (new .standard true).history [.register ⟨"half", 1, Catalogue.half⟩] = (t, log) ∧
      t.registerAll halfAndTriple = (t', .ok 1) ∧
      t'.known? "half" = some ⟨"half", 1, Catalogue.half⟩ ∧
      t'.known? "triple" = some ⟨"triple", 1, Catalogue.triple⟩ ∧
      t'.registerAll halfAndTriple = (t', .ok 0) ∧
      ∃ t'', t.registerAll
          (halfAndTriple ++ [⟨"sin", 1, Catalogue.half⟩, ⟨"avg", 2, Catalogue.avg⟩]) =
            (t'', .error (.functionExists "sin" 1)) ∧
        t''.registered? "triple" = some ⟨"triple", 1, Catalogue.triple⟩ ∧
        t''.registered? "avg" = none := by
  have made : (new .standard true).history [.register ⟨"half", 1, Catalogue.half⟩] =
      (⟨.standard, [⟨"half", 1, Catalogue.half⟩], true⟩,
        [.tried ⟨"half", 1, Catalogue.half⟩ true]) := rfl
  have plain : ∀ i ∈ halfAndTriple, Platform.standard.builtin? i.name = none := by
    simp only [halfAndTriple, List.forall_mem_cons]
    exact ⟨rfl, rfl, rfl, by simp⟩
  obtain ⟨-, -, whole⟩ :=
    registerAll_adds_first_records made (show ∀ i ∈ halfAndTriple, _ by decide)
  obtain ⟨-, known, -, again⟩ := whole plain
  obtain ⟨-, stopped, -⟩ := registerAll_adds_first_records made
    (show ∀ i ∈ halfAndTriple ++ [⟨"sin", 1, Catalogue.half⟩, ⟨"avg", 2, Catalogue.avg⟩], _ by
      decide)
  obtain ⟨added, ran, adds⟩ := stopped halfAndTriple _ _ _ rfl plain rfl
  refine ⟨_, _, _, made, rfl, ?_, ?_, again, _, ran, ?_, ?_⟩
  · exact (known ⟨"half", 2, Catalogue.avg⟩ (by simp [halfAndTriple])).2
  · exact (known ⟨"triple", 1, Catalogue.triple⟩ (by simp [halfAndTriple])).2
  · exact adds.registered? "triple"
  · exact adds.registered? "avg"

end SymbolTable
end ExprCompiler
