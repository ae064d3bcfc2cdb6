import ExprCompiler.Proofs.Pipeline
import ExprCompiler.Symbol.Collection

/-! What a symbol table knows is told by what was done to it. Every operation is a
sequence of deeds: registrations that were tried, each accepted or refused, and
clearings. Of the registrations tried since the last clearing, a name stands for the
first that it could be registered by. -/
namespace ExprCompiler

namespace SymbolTable

inductive Operation where
  | register (i : Intrinsic)
  | registerCollected (name : String)
  | registerAll (is : List Intrinsic)
  | clear

def after (t : SymbolTable) : Operation → SymbolTable
  | .register i => (t.register i).1
  | .registerCollected name => (t.registerCollected name).1
  | .registerAll is => (t.registerAll is).1
  | .clear => t.clear

inductive Deed where
  | tried (i : Intrinsic) (accepted : Bool)
  | cleared

/-- Names that are registered are passed over, and the first refusal ends it. -/
def deedsOfAll (t : SymbolTable) : List Intrinsic → List Deed
  | [] => []
  | i :: is =>
    if (t.registered? i.name).isSome then t.deedsOfAll is
    else
      match t.register i with
      | (t', .ok _) => .tried i true :: t'.deedsOfAll is
      | (_, .error _) => [.tried i false]

def deeds (t : SymbolTable) : Operation → List Deed
  | .register i => [.tried i (t.register i).2.isOk]
  | .registerCollected name =>
    ((t.platform.collected? name).map fun r =>
      Deed.tried r.intrinsic (t.register r.intrinsic).2.isOk).toList
  | .registerAll is => t.deedsOfAll is
  | .clear => [.cleared]

def history (t : SymbolTable) : List Operation → SymbolTable × List Deed
  | [] => (t, [])
  | op :: ops =>
    let later := (t.after op).history ops
    (later.1, t.deeds op ++ later.2)

def Deed.sinceClear : List Deed → List (Intrinsic × Bool) :=
  List.foldl (fun past deed =>
    match deed with
    | .tried i accepted => past ++ [(i, accepted)]
    | .cleared => []) []

theorem Deed.sinceClear_tried (log : List Deed) (i : Intrinsic) (accepted : Bool) :
    sinceClear (log ++ [.tried i accepted]) = sinceClear log ++ [(i, accepted)] := by
  simp [sinceClear]

theorem Deed.sinceClear_cleared (log : List Deed) : sinceClear (log ++ [.cleared]) = [] := by
  simp [sinceClear]

def Fits (p : Platform) (i : Intrinsic) : Prop :=
  (i.arity = 1 ∨ i.arity = 2) ∧ p.builtin? i.name = none

instance (p : Platform) (i : Intrinsic) : Decidable (Fits p i) :=
  inferInstanceAs (Decidable (_ ∧ _))

section Register

variable {t t' : SymbolTable} {i : Intrinsic}

theorem fst_register_of_error {err : Error} (refused : (t.register i).2 = .error err) :
    (t.register i).1 = t := by
  revert refused
  unfold register
  split
  · exact fun _ => rfl
  · split
    · exact fun _ => rfl
    · exact fun refused => nomatch refused

theorem register_eq_ok_iff : t.register i = (t', .ok ()) ↔
    Fits t.platform i ∧ t.registered? i.name = none ∧
      t' = { t with registered := t.registered ++ [i] } := by
  unfold register Fits known?
  by_cases unsupported : i.arity < 1 ∨ 2 < i.arity
  · rw [if_pos unsupported]
    constructor
    · intro h
      cases h
    · intro h
      omega
  · rw [if_neg unsupported]
    have supported : i.arity = 1 ∨ i.arity = 2 := by omega
    cases t.platform.builtin? i.name with
    | some built => simp
    | none =>
      cases t.registered? i.name with
      | some earlier => simp
      | none => simp [supported, eq_comm]

theorem isOk_register :
    (t.register i).2.isOk = decide (Fits t.platform i ∧ t.registered? i.name = none) := by
  cases tried : (t.register i).2 with
  | ok _ =>
    obtain ⟨fits, unknown, -⟩ := register_eq_ok_iff.mp (Prod.ext rfl tried)
    simp [Except.isOk, Except.toBool, fits, unknown]
  | error e =>
    have refused : ¬ (Fits t.platform i ∧ t.registered? i.name = none) := fun ⟨fits, unknown⟩ => by
      rw [register_eq_ok_iff.mpr ⟨fits, unknown, rfl⟩] at tried
      cases tried
    simp [Except.isOk, Except.toBool, refused]

theorem registered?_append (t : SymbolTable) (i : Intrinsic) (name : String) :
    registered? { t with registered := t.registered ++ [i] } name =
      (t.registered? name).or (if i.name = name then some i else none) := by
  simp [registered?, List.find?_append, List.find?_singleton]

end Register

/-- How a table stands to what was done to it. -/
structure Recalls (p : Platform) (host : Bool) (log : List Deed) (t : SymbolTable) : Prop where
  platform : t.platform = p
  host : t.host = host
  accepted : t.registered = ((Deed.sinceClear log).filter (·.2)).map (·.1)
  distinct : (t.registered.map (·.name)).Nodup
  fits : ∀ i ∈ t.registered, Fits p i
  first : ∀ name, t.registered? name =
    ((Deed.sinceClear log).map (·.1)).find? fun i => i.name = name ∧ Fits p i

namespace Recalls

variable {p : Platform} {host : Bool} {log : List Deed} {t t' : SymbolTable} {i : Intrinsic}

theorem new (p : Platform) (host : Bool) : Recalls p host [] (new p host) where
  platform := rfl
  host := rfl
  accepted := rfl
  distinct := .nil
  fits := by simp [SymbolTable.new]
  first := by simp [SymbolTable.new, registered?, Deed.sinceClear]

theorem clear (h : Recalls p host log t) : Recalls p host (log ++ [.cleared]) t.clear where
  platform := h.platform
  host := h.host
  accepted := by simp [Deed.sinceClear_cleared, SymbolTable.clear]
  distinct := .nil
  fits := by simp [SymbolTable.clear]
  first := by simp [Deed.sinceClear_cleared, SymbolTable.clear, registered?]

theorem accept (h : Recalls p host log t) (added : t.register i = (t', .ok ())) :
    Recalls p host (log ++ [.tried i true]) t' := by
  obtain ⟨fits, unknown, rfl⟩ := register_eq_ok_iff.mp added
  rw [h.platform] at fits
  refine ⟨h.platform, h.host, ?_, ?_, ?_, fun name => ?_⟩
  · simp [Deed.sinceClear_tried, ← h.accepted]
  · have fresh : ∀ j ∈ t.registered, j.name ≠ i.name := by
      simpa [registered?] using unknown
    rw [List.map_append, List.nodup_append]
    refine ⟨h.distinct, by simp, ?_⟩
    intro a before b last same
    obtain ⟨j, there, rfl⟩ := List.mem_map.mp before
    rw [List.map_singleton, List.mem_singleton] at last
    exact fresh j there (same.trans last)
  · intro j there
    rcases List.mem_append.mp there with before | last
    · exact h.fits j before
    · rwa [List.mem_singleton.mp last]
  · rw [registered?_append, h.first, Deed.sinceClear_tried, List.map_append, List.find?_append]
    simp [List.find?_singleton, fits]

theorem refuse (h : Recalls p host log t) (refused : (t.register i).2.isOk = false) :
    Recalls p host (log ++ [.tried i false]) t := by
  refine ⟨h.platform, h.host, ?_, h.distinct, h.fits, fun name => ?_⟩
  · simp [Deed.sinceClear_tried, ← h.accepted]
  · rw [Deed.sinceClear_tried, List.map_append, List.find?_append, ← h.first]
    rw [isOk_register, decide_eq_false_iff_not, h.platform] at refused
    cases found : t.registered? name with
    | some earlier => rfl
    | none =>
      have other : ¬ (i.name = name ∧ Fits p i) := by
        rintro ⟨rfl, fits⟩
        exact refused ⟨fits, found⟩
      simp [other]

theorem attempt (h : Recalls p host log t) (i : Intrinsic) :
    Recalls p host (log ++ [.tried i (t.register i).2.isOk]) (t.register i).1 := by
  cases tried : (t.register i).2 with
  | ok _ => exact h.accept (Prod.ext rfl tried)
  | error e =>
    rw [fst_register_of_error tried]
    exact h.refuse (by rw [tried]; rfl)

theorem registerAll (h : Recalls p host log t) (is : List Intrinsic) :
    Recalls p host (log ++ t.deedsOfAll is) (t.registerAll is).1 := by
  induction is generalizing log t with
  | nil => simpa [deedsOfAll, SymbolTable.registerAll] using h
  | cons i is ih =>
    have next := h.attempt i
    rw [deedsOfAll, SymbolTable.registerAll]
    split
    · exact ih h
    · rcases tried : t.register i with ⟨t', e | _⟩
      · rw [tried] at next
        exact next
      · rw [tried] at next
        rw [List.append_cons]
        exact ih next

theorem after (h : Recalls p host log t) (op : Operation) :
    Recalls p host (log ++ t.deeds op) (t.after op) := by
  cases op with
  | register i => exact h.attempt i
  | registerAll is => exact h.registerAll is
  | clear => exact h.clear
  | registerCollected name =>
    simp only [deeds, SymbolTable.after, registerCollected]
    cases t.platform.collected? name with
    | some r => exact h.attempt r.intrinsic
    | none => simpa using h

theorem history (h : Recalls p host log t) (ops : List Operation) :
    Recalls p host (log ++ (t.history ops).2) (t.history ops).1 := by
  induction ops generalizing log t with
  | nil => simpa [SymbolTable.history] using h
  | cons op ops ih =>
    rw [SymbolTable.history, ← List.append_assoc]
    exact ih (h.after op)

theorem registered?_name (h : Recalls p host log t) (there : i ∈ t.registered) :
    t.registered? i.name = some i := by
  cases found : t.registered? i.name with
  | none => simpa using List.find?_eq_none.mp found i there
  | some j =>
    have named : j.name = i.name := by simpa using List.find?_some found
    rw [List.inj_on_of_nodup_map h.distinct (List.mem_of_find?_eq_some found) there named]

end Recalls

theorem register_ok_iff {t : SymbolTable} {i : Intrinsic} :
    (t.register i).2 = .ok () ↔ (i.arity = 1 ∨ i.arity = 2) ∧ t.known? i.name = none := by
  have accepted : (t.register i).2 = .ok () ↔ ∃ t', t.register i = (t', .ok ()) :=
    ⟨fun ok => ⟨_, Prod.ext rfl ok⟩, fun ⟨_, ok⟩ => congrArg Prod.snd ok⟩
  simp [accepted, register_eq_ok_iff, Fits, known?, and_assoc]

/-- After any operations on a new table: a registered function stands under its own
name, which is no built-in's, and takes one or two arguments. A name stands for the
built-in of that name, else for the one record accepted under it since the last
clearing, which is the first one tried that fits. Registering and resolving follow what
is known; the host is asked only for a name that is not. -/
theorem known_by_history {p : Platform} {host : Bool} {operations : List Operation}
    {t : SymbolTable} {log : List Deed} (made : (new p host).history operations = (t, log)) :
    (∀ key i, t.registered? key = some i →
      i.name = key ∧ (i.arity = 1 ∨ i.arity = 2) ∧ p.builtin? key = none) ∧
    (∀ i ∈ t.registered, t.registered? i.name = some i) ∧
    (((Deed.sinceClear log).filter (·.2)).map (·.1.name)).Nodup ∧
    (∀ name, t.known? name = (p.builtin? name).or
      ((((Deed.sinceClear log).filter (·.2)).map (·.1)).find? (·.name = name))) ∧
    (∀ name, t.known? name = (p.builtin? name).or
      (((Deed.sinceClear log).map (·.1)).find? fun i =>
        i.name = name ∧ (i.arity = 1 ∨ i.arity = 2))) ∧
    (∀ i, (t.register i).2 = .ok () ↔
      (i.arity = 1 ∨ i.arity = 2) ∧ t.known? i.name = none) ∧
    (∀ name n f, t.known? name = some f → t.resolve name n =
      if f.arity = n then .ok ⟨if (p.builtin? name).isSome then .builtin else .registered, f.native⟩
      else .error (.unresolvedSymbol name (some n))) ∧
    (∀ name n, t.known? name = none → t.resolve name n =
      (if host then p.symbol? name else none).elim (.error (.unresolvedSymbol name none))
        fun native => .ok ⟨.host, native⟩) ∧
    ∀ name n e, t.resolve name n = .error e → e.message = "unresolved symbol: " ++
      if (t.known? name).isSome then name ++ "/" ++ toString n else name := by
  have h : Recalls p host log t := by
    have := (Recalls.new p host).history operations
    rwa [made, List.nil_append] at this
  refine ⟨?_, ?_, ?_, ?_, ?_, fun i => register_ok_iff,
    fun name n f known => h.platform ▸ resolve_of_known n known, ?_,
    fun name n e refused => (resolve_eq_error_iff.mp refused).message⟩
  · intro key i found
    have named : i.name = key := by simpa using List.find?_some found
    have fits := h.fits i (List.mem_of_find?_eq_some found)
    exact ⟨named, fits.1, named ▸ fits.2⟩
  · exact fun i => h.registered?_name
  · have distinct := h.distinct
    rwa [h.accepted, List.map_map] at distinct
  · intro name
    rw [known?, registered?, h.accepted, h.platform]
  · intro name
    rw [known?, h.first, h.platform]
    cases built : p.builtin? name with
    | some f => rfl
    | none =>
      have same : (fun i : Intrinsic => decide (i.name = name ∧ Fits p i)) =
          fun i => decide (i.name = name ∧ (i.arity = 1 ∨ i.arity = 2)) := by
        funext i
        by_cases named : i.name = name
        · simp [Fits, named, built]
        · simp [named]
      rw [same]
  · intro name n unknown
    rw [resolve_of_unknown unknown, h.host, h.platform]

def halvesAndTriples : List Operation :=
  [.register ⟨"half", 1, Catalogue.half⟩, .register ⟨"half", 2, Catalogue.minus⟩,
    .register ⟨"sin", 1, Catalogue.triple⟩, .registerCollected "recip", .clear,
    .register ⟨"half", 3, Catalogue.avg⟩, .register ⟨"half", 2, Catalogue.avg⟩,
    .registerAll [⟨"half", 1, Catalogue.half⟩, ⟨"cbrt", 2, Catalogue.minus⟩,
      ⟨"sin", 1, Catalogue.triple⟩, ⟨"triple", 1, Catalogue.triple⟩]]

/-- The average took the name; the host's cube root is hidden by a function of another
arity; and what follows the refused record of a list is not tried. -/
theorem halvesAndTriples_known_by_history :
    ∃ t log, (new .standard true).history halvesAndTriples = (t, log) ∧
      t.known? "half" = some ⟨"half", 2, Catalogue.avg⟩ ∧
      t.resolve "half" 2 = .ok ⟨.registered, Catalogue.avg⟩ ∧
      t.resolve "cbrt" 1 = .error (.unresolvedSymbol "cbrt" (some 1)) ∧
      t.known? "triple" = none := by
  obtain ⟨-, -, -, -, first, -, known, -, -⟩ :=
    known_by_history (show (new .standard true).history halvesAndTriples = (_, _) from rfl)
  have half : (((new .standard true).history halvesAndTriples).1).known? "half" =
      some ⟨"half", 2, Catalogue.avg⟩ := (first "half").trans rfl
  have root : (((new .standard true).history halvesAndTriples).1).known? "cbrt" =
      some ⟨"cbrt", 2, Catalogue.minus⟩ := (first "cbrt").trans rfl
  refine ⟨_, _, rfl, half, ?_, ?_, (first "triple").trans rfl⟩
  · exact (known "half" 2 _ half).trans rfl
  · exact (known "cbrt" 1 _ root).trans rfl

end SymbolTable
end ExprCompiler
