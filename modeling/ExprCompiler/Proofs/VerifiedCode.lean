import ExprCompiler.Proofs.Compilation
import ExprCompiler.Proofs.Emission
import Mathlib.Data.Finset.Card

/-! What verification says of a unit, whoever made it. A unit passes exactly when
it is well formed, and the code of a well-formed unit can go wrong in one way only:
its functions call each other without end. Which functions those are is decided by
the calls in the bodies alone, and by as many open calls as there are functions. -/
namespace ExprCompiler

namespace CompilationUnit

def Names (u : CompilationUnit) (r : FunctionRef) (index : Nat) (d : Declaration) : Prop :=
  r.target = .declaration 0 index ∧ u.declarations[index]? = some d ∧ r.signature = d.signature

/-- What has to hold of a unit before it may be compiled. The functions of its own
are the owners of its bodies, each of one. -/
structure WellFormed (u : CompilationUnit) : Prop where
  distinct : (u.bodies.map (·.1)).Nodup
  owners : ∀ k, k ∈ u.bodies.map (·.1) ↔ ∃ d, u.declarations[k]? = some d ∧ d.linkage = .own
  returns : ∀ d ∈ u.declarations, d.signature.returns = [.f64]
  signatures : ∀ k b d, (k, b) ∈ u.bodies → u.declarations[k]? = some d →
    b.signature = d.signature
  references : ∀ k b r, (k, b) ∈ u.bodies → r ∈ b.references → ∃ index d, u.Names r index d
  blocks : ∀ k b, (k, b) ∈ u.bodies →
    ∃ block, b.block = some block ∧ block.fits b.signature b.references = true

section Faults

variable {u : CompilationUnit}

theorem bodyCount_eq (u : CompilationUnit) (k : Nat) :
    u.bodyCount k = (u.bodies.map (·.1)).count k := by
  rw [bodyCount, ← List.countP_eq_length_filter, List.count_eq_countP, List.countP_map]
  rfl

theorem declarationFaults_eq_nil_iff {k : Nat} {d : Declaration} :
    u.declarationFaults k d = [] ↔
      (u.bodies.map (·.1)).count k = (if d.linkage = .own then 1 else 0) ∧
        d.signature.returns = [.f64] := by
  unfold declarationFaults
  rw [bodyCount_eq, List.append_eq_nil_iff]
  cases d.linkage <;> simp

theorem referenceFaults_eq_nil_iff {name : String} {k : Nat} {r : FunctionRef} :
    u.referenceFaults name k r = [] ↔ ∃ index d, u.Names r index d := by
  unfold referenceFaults Names
  cases r.target with
  | library => simp
  | declaration space index =>
    by_cases unit : space = 0
    · simp only [unit, if_true]
      split
      · next missing => simp [missing]
      · next d found => simp [found]
    · simp [unit]

theorem bodyFaults_eq_nil_iff {k : Nat} {b : Body} :
    u.bodyFaults k b = [] ↔ ∃ d, u.declarations[k]? = some d ∧ b.signature = d.signature ∧
      (∃ block, b.block = some block ∧ block.fits b.signature b.references = true) ∧
      ∀ r ∈ b.references, ∃ index d, u.Names r index d := by
  unfold bodyFaults
  cases u.declarations[k]? with
  | none => simp
  | some d =>
    have references :
        (b.references.zipIdx.flatMap fun p => u.referenceFaults d.name p.2 p.1) = [] ↔
          ∀ r ∈ b.references, ∃ index d, u.Names r index d := by
      simp only [List.flatMap_eq_nil_iff, referenceFaults_eq_nil_iff]
      constructor
      · intro all r hr
        obtain ⟨i, inside, rfl⟩ := List.getElem_of_mem hr
        exact all (b.references[i], i) (List.mem_zipIdx_iff_getElem?.mpr (by simp [inside]))
      · exact fun all p hp => all p.1 (List.fst_mem_of_mem_zipIdx hp)
    simp only [List.append_eq_nil_iff, references]
    cases b.block <;> simp [and_assoc]

theorem faults_eq_nil_iff : u.faults = [] ↔ u.WellFormed := by
  have all : u.faults = [] ↔
      (∀ k d, u.declarations[k]? = some d → u.declarationFaults k d = []) ∧
        ∀ k b, (k, b) ∈ u.bodies → u.bodyFaults k b = [] := by
    rw [faults, List.append_eq_nil_iff, List.flatMap_eq_nil_iff, List.flatMap_eq_nil_iff]
    simp only [Prod.forall, List.mem_zipIdx_iff_getElem?]
    exact and_congr_left fun _ => forall_comm
  simp only [all, declarationFaults_eq_nil_iff, bodyFaults_eq_nil_iff]
  constructor
  · rintro ⟨declared, bodies⟩
    have owned {k : Nat} (owner : k ∈ u.bodies.map (·.1)) :
        ∃ d, u.declarations[k]? = some d := by
      obtain ⟨p, there, rfl⟩ := List.mem_map.mp owner
      obtain ⟨d, found, -⟩ := bodies p.1 p.2 there
      exact ⟨d, found⟩
    refine ⟨List.nodup_iff_count_le_one.mpr fun k => ?_, fun k => ⟨fun owner => ?_, ?_⟩,
      ?_, ?_, ?_, ?_⟩
    · by_cases owner : k ∈ u.bodies.map (·.1)
      · obtain ⟨d, found⟩ := owned owner
        rw [(declared k d found).1]
        split <;> omega
      · rw [List.count_eq_zero.mpr owner]
        omega
    · obtain ⟨d, found⟩ := owned owner
      refine ⟨d, found, ?_⟩
      have counted := (declared k d found).1
      by_contra imported
      rw [if_neg imported, List.count_eq_zero] at counted
      exact counted owner
    · rintro ⟨d, found, own⟩
      rw [← List.count_pos_iff, (declared k d found).1, if_pos own]
      omega
    · intro d there
      obtain ⟨k, inside, rfl⟩ := List.getElem_of_mem there
      exact (declared k _ (List.getElem?_eq_getElem inside)).2
    · intro k b d there found
      obtain ⟨d', found', same, -⟩ := bodies k b there
      cases found.symm.trans found'
      exact same
    · intro k b r there refers
      obtain ⟨-, -, -, -, references⟩ := bodies k b there
      exact references r refers
    · intro k b there
      obtain ⟨-, -, -, block, -⟩ := bodies k b there
      exact block
  · intro h
    refine ⟨fun k d found => ⟨?_, h.returns d (List.mem_of_getElem? found)⟩, fun k b there => ?_⟩
    · have owner : k ∈ u.bodies.map (·.1) ↔ d.linkage = .own := by simp [h.owners, found]
      split
      · next own => exact List.count_eq_one_of_mem h.distinct (owner.mpr own)
      · next imported => exact List.count_eq_zero.mpr (mt owner.mp imported)
    · obtain ⟨d, found, -⟩ := (h.owners k).mp (List.mem_map.mpr ⟨_, there, rfl⟩)
      exact ⟨d, found, h.signatures k b d there found, h.blocks k b there,
        fun r => h.references k b r there⟩

theorem exists_verify_iff : (∃ v, u.verify = .ok v) ↔ u.WellFormed := by
  rw [← faults_eq_nil_iff]
  unfold verify
  split
  · next sound => simp [sound]
  · next wrong => simp [wrong]

theorem verify_of_not_wellFormed (wrong : ¬ u.WellFormed) :
    ∃ fault, u.verify = .error (.verification fault) := by
  rw [← faults_eq_nil_iff] at wrong
  unfold verify
  split
  · next sound => exact absurd sound wrong
  · exact ⟨_, rfl⟩

end Faults

def behind (u : CompilationUnit) (natives : Declaration → Native) (k : Nat) (d : Declaration) :
    Function :=
  if d.linkage = .imported then .native d.name d.signature.params.length (natives d)
  else (u.bodies.lookup k).elim .absent (.code d.signature.params.length)

def linked (u : CompilationUnit) (natives : Declaration → Native) : List Function :=
  u.declarations.mapIdx (u.behind natives)

end CompilationUnit

def SymbolTable.native (t : SymbolTable) (d : Declaration) : Native :=
  (t.resolve d.name d.signature.params.length).toOption.elim (.unary id) (·.native)

def Target.index? : Target → Option Nat
  | .declaration _ index => some index
  | .library => none

def Instr.target? (references : List FunctionRef) (instr : Instr) : Option Nat :=
  instr.reference?.bind fun k => references[k]?.bind (·.target.index?)

namespace CompilationUnit

def callees (u : CompilationUnit) (index : Nat) : List Nat :=
  (u.bodies.lookup index).elim [] fun b =>
    b.block.elim [] fun block => block.instrs.filterMap (Instr.target? b.references)

/-- Whether a function comes back when so many calls may be open at once. Bodies
have no jumps, so every call of a body is made. -/
def Returns (u : CompilationUnit) : (depth index : Nat) → Prop
  | 0, _ => False
  | depth + 1, index => ∀ k ∈ u.callees index, u.Returns depth k

instance decidableReturns (u : CompilationUnit) :
    (depth index : Nat) → Decidable (u.Returns depth index)
  | 0, _ => isFalse False.elim
  | depth + 1, index =>
    have := u.decidableReturns depth
    inferInstanceAs (Decidable (∀ k ∈ u.callees index, u.Returns depth k))

end CompilationUnit

namespace Machine

/-- A run that gives a result with property `Q` if `p`, and else nests too deep. -/
def Answers (r : Except MachineFault α) (p : Prop) (Q : α → Prop) : Prop :=
  (p → ∃ a, r = .ok a ∧ Q a) ∧ (¬ p → r = .error .tooDeep)

theorem Answers.ok {a : α} {Q : α → Prop} (h : Q a) {p : Prop} (holds : p) :
    Answers (.ok a) p Q :=
  ⟨fun _ => ⟨a, rfl, h⟩, fun refuted => absurd holds refuted⟩

theorem Answers.bind {r : Except MachineFault α} {f : α → Except MachineFault β} {p q : Prop}
    {Q : α → Prop} {Q' : β → Prop} (first : Answers r p Q)
    (second : ∀ a, Q a → Answers (f a) q Q') : Answers (r >>= f) (p ∧ q) Q' := by
  by_cases holds : p
  · obtain ⟨a, ran, has⟩ := first.1 holds
    rw [ran]
    exact ⟨fun both => (second a has).1 both.2,
      fun failed => (second a has).2 fun later => failed ⟨holds, later⟩⟩
  · rw [first.2 holds]
    exact ⟨fun both => absurd both.1 holds, fun _ => rfl⟩

theorem Answers.congr {r : Except MachineFault α} {p q : Prop} {Q : α → Prop}
    (h : Answers r p Q) (same : p ↔ q) : Answers r q Q := by
  rwa [← propext same]

theorem Answers.bind_ok {r : Except MachineFault α} {f : α → Except MachineFault β} {p : Prop}
    {Q : α → Prop} {Q' : β → Prop} (first : Answers r p Q)
    (second : ∀ a, Q a → ∃ b, f a = .ok b ∧ Q' b) : Answers (r >>= f) p Q' :=
  (first.bind fun a has => ⟨fun _ => second a has, fun refuted => absurd trivial refuted⟩).congr
    (iff_of_eq (and_true p))

theorem exists_read {values : List Word} {types : List Ty} {v : Nat} {ty : Ty}
    (sized : values.length = types.length) (typed : types[v]? = some ty) :
    ∃ w, read values v = .ok w := by
  have inside := (List.getElem?_eq_some_iff.mp typed).1
  exact ⟨_, read_of_getElem? (List.getElem?_eq_getElem (sized ▸ inside))⟩

theorem exists_readAll {values : List Word} {types tys : List Ty} {vs : List Nat}
    (sized : values.length = types.length) (typed : vs.map (types[·]?) = tys.map some) :
    ∃ ws, readAll values vs = .ok ws ∧ ws.length = tys.length := by
  induction vs generalizing tys with
  | nil =>
    refine ⟨[], rfl, ?_⟩
    simpa using congrArg List.length typed
  | cons v vs ih =>
    cases tys with
    | nil => simp at typed
    | cons ty tys =>
      simp only [List.map_cons, List.cons.injEq] at typed
      obtain ⟨w, first⟩ := exists_read sized typed.1
      obtain ⟨ws, rest, counted⟩ := ih typed.2
      refine ⟨w :: ws, ?_, by simp [counted]⟩
      rw [readAll, first, rest]
      rfl

section Typed

variable {u : CompilationUnit} {references : List FunctionRef} {types types' : List Ty}
  {enter : Nat → List Word → Except MachineFault (Word × List Call)} {R : Nat → Prop}

theorem answers_step (slots : List Double) {values : List Word} {instr : Instr} {ty : Ty}
    (named : ∀ r ∈ references, ∃ index d, u.Names r index d)
    (entered : ∀ index d ws, u.declarations[index]? = some d →
      ws.length = d.signature.params.length → Answers (enter index ws) (R index) fun _ => True)
    (sized : values.length = types.length) (typed : instr.type? references types = some ty) :
    Answers (step enter slots references values instr)
      (∀ k ∈ instr.target? references, R k) fun _ => True := by
  cases instr with
  | const c => exact .ok trivial (by simp [Instr.target?, Instr.reference?])
  | bufferAddress => exact .ok trivial (by simp [Instr.target?, Instr.reference?])
  | neg a =>
    have fits : types[a]? = some .f64 := by
      by_contra other
      simp [Instr.type?, other] at typed
    obtain ⟨w, found⟩ := exists_read sized fits
    rw [step, found]
    exact .ok trivial (by simp [Instr.target?, Instr.reference?])
  | binary op a b =>
    have fits : types[a]? = some .f64 ∧ types[b]? = some .f64 := by
      by_contra other
      simp [Instr.type?, other] at typed
    obtain ⟨w, found⟩ := exists_read sized fits.1
    obtain ⟨w', found'⟩ := exists_read sized fits.2
    rw [step, found, found']
    exact .ok trivial (by simp [Instr.target?, Instr.reference?])
  | load base offset =>
    have fits : types[base]? = some .i64 := by
      by_contra other
      simp [Instr.type?, other] at typed
    obtain ⟨w, found⟩ := exists_read sized fits
    rw [step, found]
    exact .ok trivial (by simp [Instr.target?, Instr.reference?])
  | call k args =>
    rw [Instr.type?] at typed
    split at typed
    · next r referred =>
      have passed : args.map (types[·]?) = r.signature.params.map some := by
        by_contra other
        simp [other] at typed
      obtain ⟨index, d, target, declared, signature⟩ := named r (List.mem_of_getElem? referred)
      obtain ⟨ws, read, counted⟩ := exists_readAll sized passed
      have called : step enter slots references values (.call k args) = enter index ws := by
        obtain ⟨_, _⟩ := r
        cases target
        rw [step, referred]
        simp only [read]
        rfl
      rw [called]
      refine (entered index d ws declared (by rw [counted, signature])).congr ?_
      simp [Instr.target?, Instr.reference?, referred, target, Target.index?]
    · cases typed

theorem answers_steps (slots : List Double)
    (named : ∀ r ∈ references, ∃ index d, u.Names r index d)
    (entered : ∀ index d ws, u.declarations[index]? = some d →
      ws.length = d.signature.params.length → Answers (enter index ws) (R index) fun _ => True)
    {instrs : List Instr} {values : List Word} (sized : values.length = types.length)
    (typed : Instr.types? references types instrs = some types') :
    Answers (steps enter slots references values instrs)
      (∀ k ∈ instrs.filterMap (Instr.target? references), R k)
      fun p => p.1.length = types'.length := by
  induction instrs generalizing types values with
  | nil =>
    cases typed
    exact Answers.ok (a := (values, [])) sized (by simp)
  | cons instr instrs ih =>
    rw [Instr.types?] at typed
    split at typed
    · next ty fits =>
      have first := answers_step slots named entered sized fits
      have rest (w : Word) :=
        ih (show (values ++ [w]).length = (types ++ [ty]).length by simp [sized]) typed
      rw [steps]
      refine (first.bind fun p _ => ((rest p.1).bind_ok fun q final => ?_)).congr ?_
      · exact ⟨_, rfl, final⟩
      · cases called : instr.target? references with
        | none => simp [called]
        | some k => simp [called]
    · cases typed

end Typed

end Machine

namespace CompilationUnit

variable {u : CompilationUnit}

theorem mem_bodies_of_lookup {k : Nat} {b : Body} (found : u.bodies.lookup k = some b) :
    (k, b) ∈ u.bodies := by
  obtain ⟨before, after, split, -⟩ := List.lookup_eq_some_iff.mp found
  simp [split]

theorem WellFormed.lookup_imported (h : u.WellFormed) {k : Nat} {d : Declaration}
    (declared : u.declarations[k]? = some d) (imported : d.linkage = .imported) :
    u.bodies.lookup k = none := by
  cases found : u.bodies.lookup k with
  | none => rfl
  | some b =>
    obtain ⟨d', declared', own⟩ :=
      (h.owners k).mp (List.mem_map.mpr ⟨_, mem_bodies_of_lookup found, rfl⟩)
    cases declared.symm.trans declared'
    cases imported.symm.trans own

theorem WellFormed.exists_lookup (h : u.WellFormed) {k : Nat} {d : Declaration}
    (declared : u.declarations[k]? = some d) (own : d.linkage = .own) :
    ∃ b, u.bodies.lookup k = some b ∧ (k, b) ∈ u.bodies := by
  cases found : u.bodies.lookup k with
  | some b => exact ⟨b, rfl, mem_bodies_of_lookup found⟩
  | none =>
    obtain ⟨p, there, rfl⟩ := List.mem_map.mp ((h.owners k).mpr ⟨d, declared, own⟩)
    simpa using List.lookup_eq_none_iff.mp found p there

theorem WellFormed.exists_block (h : u.WellFormed) {k : Nat} {b : Body} {d : Declaration}
    (there : (k, b) ∈ u.bodies) (declared : u.declarations[k]? = some d) :
    ∃ block types v, b.block = some block ∧ block.returned = some [v] ∧
      Instr.types? b.references d.signature.params block.instrs = some types ∧
      types[v]? = some .f64 := by
  obtain ⟨block, found, fits⟩ := h.blocks k b there
  rw [Block.fits, Bool.and_eq_true, decide_eq_true_eq, h.signatures k b d there declared,
    h.returns d (List.mem_of_getElem? declared)] at fits
  obtain ⟨params, typed⟩ := fits
  rw [params] at typed
  split at typed
  · next types vs fit returned =>
    rw [decide_eq_true_eq] at typed
    obtain ⟨v, rfl⟩ : ∃ v, vs = [v] :=
      List.length_eq_one_iff.mp (by simpa using congrArg List.length typed)
    exact ⟨block, types, v, found, returned, fit, by simpa using typed⟩
  · cases typed

theorem implementation_eq {t : SymbolTable} {k : Nat} {d : Declaration} {f : Function}
    (h : u.implementation t k d = .ok f) : f = u.behind t.native k d := by
  unfold implementation at h
  unfold behind SymbolTable.native
  cases linkage : d.linkage with
  | imported =>
    cases resolved : t.resolve d.name d.signature.params.length with
    | error e => simp [linkage, resolved, Except.map] at h
    | ok r =>
      simp only [linkage, resolved] at h
      cases h
      rfl
  | own => cases owned : u.bodies.lookup k <;> simpa [linkage, owned] using h.symm

theorem getElem?_linked (natives : Declaration → Native) {k : Nat} {d : Declaration}
    (declared : u.declarations[k]? = some d) :
    (u.linked natives)[k]? = some (u.behind natives k d) := by
  rw [linked, List.getElem?_mapIdx, declared]
  rfl

theorem implementations_eq {t : SymbolTable} {index : Nat} {ds : List Declaration}
    {functions : List Function} (h : u.implementations t index ds = .ok functions) :
    functions = ds.mapIdx fun k => u.behind t.native (index + k) := by
  induction ds generalizing index functions with
  | nil =>
    cases h
    rfl
  | cons d ds ih =>
    rw [implementations] at h
    cases first : u.implementation t index d with
    | error e => simp [first, bind, Except.bind] at h
    | ok f =>
      cases rest : u.implementations t (index + 1) ds with
      | error e => simp [first, rest, bind, Except.bind] at h
      | ok fs =>
        simp only [first, rest, bind, Except.bind, pure, Except.pure, Except.ok.injEq] at h
        rw [← h, List.mapIdx_cons, ih rest, implementation_eq first]
        simp only [Nat.add_zero, Nat.add_assoc, Nat.add_comm 1]

end CompilationUnit

namespace Machine

open CompilationUnit

theorem answers_call {u : CompilationUnit} (h : u.WellFormed) (natives : Declaration → Native)
    (slots : List Double) (depth index : Nat) (d : Declaration) (args : List Word)
    (declared : u.declarations[index]? = some d)
    (passed : args.length = d.signature.params.length) :
    Answers (call (u.linked natives) slots depth index args) (u.Returns depth index)
      fun _ => True := by
  induction depth generalizing index d args with
  | zero => exact ⟨False.elim, fun _ => rfl⟩
  | succ depth ih =>
    have found := getElem?_linked natives declared
    cases linkage : d.linkage with
    | imported =>
      rw [behind, linkage, if_pos rfl] at found
      rw [call, found]
      simp only [passed, ne_eq, not_true_eq_false, if_false]
      refine .ok trivial fun k called => ?_
      rw [callees, h.lookup_imported declared linkage] at called
      cases called
    | own =>
      obtain ⟨b, owned, there⟩ := h.exists_lookup declared linkage
      obtain ⟨block, types, v, entry, returned, typed, fits⟩ := h.exists_block there declared
      rw [behind, linkage, if_neg (by decide), owned] at found
      have ran := answers_steps slots (fun r => h.references index b r there) ih passed typed
      have calls : u.callees index = block.instrs.filterMap (Instr.target? b.references) := by
        simp [callees, owned, entry]
      rw [call, found]
      simp only [Option.elim_some, passed, ne_eq, not_true_eq_false, if_false, entry, returned]
      rw [CompilationUnit.Returns, calls]
      refine ran.bind_ok fun p sized => ?_
      obtain ⟨w, got⟩ := exists_read sized fits
      rw [got]
      exact ⟨_, rfl, trivial⟩

end Machine

namespace CompilationUnit

variable {u : CompilationUnit}

theorem Returns.succ {depth index : Nat} (h : u.Returns depth index) :
    u.Returns (depth + 1) index := by
  induction depth generalizing index with
  | zero => exact h.elim
  | succ depth ih => exact fun k called => ih (h k called)

theorem WellFormed.callees_lt (h : u.WellFormed) {index k : Nat} (called : k ∈ u.callees index) :
    k < u.declarations.length := by
  unfold callees at called
  cases found : u.bodies.lookup index with
  | none => simp [found] at called
  | some b =>
    cases entry : b.block with
    | none => simp [found, entry] at called
    | some block =>
      simp only [found, entry, Option.elim_some, List.mem_filterMap] at called
      obtain ⟨instr, -, target⟩ := called
      obtain ⟨i, -, target⟩ := Option.bind_eq_some_iff.mp target
      obtain ⟨r, referred, target⟩ := Option.bind_eq_some_iff.mp target
      obtain ⟨index', d, names, declared, -⟩ :=
        h.references index b r (mem_bodies_of_lookup found) (List.mem_of_getElem? referred)
      rw [names] at target
      cases target
      exact (List.getElem?_eq_some_iff.mp declared).1

/-- A function that comes back within `depth + 1` open calls and not within `depth`
leads through as many functions, each of which comes back earlier than the one
that calls it. -/
theorem WellFormed.exists_chain (h : u.WellFormed) {depth index : Nat}
    (inside : index < u.declarations.length) (returns : u.Returns (depth + 1) index)
    (late : ¬ u.Returns depth index) :
    ∃ chain : Finset Nat, chain ⊆ Finset.range u.declarations.length ∧
      chain.card = depth + 1 ∧ ∀ k ∈ chain, u.Returns (depth + 1) k := by
  induction depth generalizing index with
  | zero => exact ⟨{index}, by simpa using inside, rfl, by simpa using returns⟩
  | succ depth ih =>
    obtain ⟨k, called, slow⟩ : ∃ k ∈ u.callees index, ¬ u.Returns depth k := by
      simpa [Returns] using late
    obtain ⟨chain, within, size, early⟩ := ih (h.callees_lt called) (returns k called) slow
    have fresh : index ∉ chain := fun member => late (early index member)
    refine ⟨insert index chain, ?_, ?_, ?_⟩
    · exact Finset.insert_subset (Finset.mem_range.mpr inside) within
    · rw [Finset.card_insert_of_notMem fresh, size]
    · intro j member
      obtain rfl | member := Finset.mem_insert.mp member
      · exact returns
      · exact (early j member).succ

/-- As many open calls as there are functions are enough for every function that
comes back at all. -/
theorem WellFormed.returns_length (h : u.WellFormed) {depth index : Nat}
    (inside : index < u.declarations.length) (returns : u.Returns depth index) :
    u.Returns u.declarations.length index := by
  have more (m n : Nat) (early : u.Returns m index) : u.Returns (m + n) index := by
    induction n with
    | zero => exact early
    | succ n ih => exact ih.succ
  induction depth with
  | zero => exact returns.elim
  | succ depth ih =>
    by_cases early : u.Returns depth index
    · exact ih early
    · obtain ⟨chain, within, size, -⟩ := h.exists_chain inside returns early
      have few := Finset.card_le_card within
      rw [size, Finset.card_range] at few
      have := more _ (u.declarations.length - (depth + 1)) returns
      rwa [Nat.add_sub_cancel' few] at this

end CompilationUnit

namespace Machine

/-- A function that does not come back, whatever it is called with and however deep
calls may nest. -/
def Endless (functions : List Function) (index : Nat) : Prop :=
  ∀ slots depth args, args.length = arity functions index →
    call functions slots depth index args = .error .tooDeep

theorem error_of_run {functions : List Function} {slots args : List Double} {index : Nat}
    {fault : MachineFault} (h : run functions slots index args = .error fault) :
    ∃ words, words.length = arity functions index ∧
      call functions slots functions.length index words = .error fault := by
  refine ⟨(List.range (arity functions index)).map fun k => .double (args.getD k 0), by simp, ?_⟩
  unfold run at h
  cases called : call functions slots functions.length index
      ((List.range (arity functions index)).map fun k => .double (args.getD k 0)) with
  | ok r =>
    rw [called] at h
    cases h
  | error fault' =>
    rw [called] at h
    cases h
    rfl

end Machine

namespace CompilationUnit

variable {u : CompilationUnit} {natives : Declaration → Native}

theorem WellFormed.arity_linked (h : u.WellFormed) {index : Nat} {d : Declaration}
    (declared : u.declarations[index]? = some d) :
    Machine.arity (u.linked natives) index = d.signature.params.length := by
  rw [Machine.arity, getElem?_linked natives declared, behind]
  cases linkage : d.linkage with
  | imported => rfl
  | own =>
    obtain ⟨b, owned, -⟩ := h.exists_lookup declared linkage
    rw [owned]
    rfl

theorem WellFormed.endless_of_run (h : u.WellFormed) {slots args : List Double} {index : Nat}
    {d : Declaration} {fault : MachineFault} (declared : u.declarations[index]? = some d)
    (stopped : Machine.run (u.linked natives) slots index args = .error fault) :
    fault = .tooDeep ∧ Machine.Endless (u.linked natives) index := by
  obtain ⟨words, passed, called⟩ := Machine.error_of_run stopped
  rw [h.arity_linked declared] at passed
  have answers := Machine.answers_call h natives slots (u.linked natives).length index d words
    declared passed
  have deep : ¬ u.Returns (u.linked natives).length index := by
    intro returns
    obtain ⟨r, ran, -⟩ := answers.1 returns
    cases ran.symm.trans called
  refine ⟨?_, fun slots depth args counted => ?_⟩
  · cases (answers.2 deep).symm.trans called
    rfl
  · rw [h.arity_linked declared] at counted
    have inside := (List.getElem?_eq_some_iff.mp declared).1
    refine (Machine.answers_call h natives slots depth index d args declared counted).2 ?_
    intro returns
    rw [linked, List.length_mapIdx] at deep
    exact deep (h.returns_length inside returns)

theorem eq_linked_of_link {t : SymbolTable} {functions : List Function}
    (h : u.link t = .ok functions) : functions = u.linked t.native := by
  simpa [linked] using implementations_eq (implementations_of_link h)

/-- Verification accepts the well-formed units, hands them on as they are, and
reports a fault of every other unit. Whatever its imports are linked to and however
many calls may be open, a function of an accepted unit that is called with as many
arguments as it has parameters gives a result, or its calls nest too deep: which of
the two, the calls in the bodies tell. -/
theorem verified_code_never_stuck (u : CompilationUnit) :
    ((∃ v, u.verify = .ok v) ↔ u.WellFormed) ∧
      (¬ u.WellFormed → ∃ fault, u.verify = .error (.verification fault)) ∧
      (∀ t functions, u.link t = .ok functions → functions = u.linked t.native) ∧
      ∀ v, u.verify = .ok v → v.unit = u ∧
        ∀ natives slots depth index d args, u.declarations[index]? = some d →
          args.length = d.signature.params.length →
          (u.Returns depth index ∧
              ∃ r, Machine.call (u.linked natives) slots depth index args = .ok r) ∨
            (¬ u.Returns depth index ∧
              Machine.call (u.linked natives) slots depth index args = .error .tooDeep) := by
  refine ⟨exists_verify_iff, verify_of_not_wellFormed, fun _ _ => eq_linked_of_link, ?_⟩
  intro v verified
  refine ⟨unit_of_verify verified, ?_⟩
  intro natives slots depth index d args declared passed
  have h : u.WellFormed := exists_verify_iff.mp ⟨v, verified⟩
  have answers := Machine.answers_call h natives slots depth index d args declared passed
  by_cases returns : u.Returns depth index
  · obtain ⟨r, called, -⟩ := answers.1 returns
    exact .inl ⟨returns, r, called⟩
  · exact .inr ⟨returns, answers.2 returns⟩

def loopBesideTwice : CompilationUnit where
  id := 0
  declarations :=
    [⟨"loop", .own, .f64 1⟩, ⟨"sin", .imported, .f64 1⟩, ⟨"twice", .own, .f64 1⟩]
  bodies :=
    [(2, ⟨2, .f64 1, [⟨.declaration 0 1, .f64 1⟩],
        some ⟨[.f64], [.call 0 [0], .call 0 [1]], some [2]⟩⟩),
      (0, ⟨0, .f64 1, [⟨.declaration 0 0, .f64 1⟩], some ⟨[.f64], [.call 0 [0]], some [1]⟩⟩)]
  arity := 1
  strategy := .positional
  buffer := none
  baked := none

theorem loopBesideTwice_never_stuck :
    (∃ v, loopBesideTwice.verify = .ok v ∧ v.unit = loopBesideTwice) ∧
      (∀ natives slots x,
        ∃ r, Machine.call (loopBesideTwice.linked natives) slots 2 2 [x] = .ok r) ∧
      (∀ natives slots depth x,
        Machine.call (loopBesideTwice.linked natives) slots depth 0 [x] = .error .tooDeep) ∧
      ∃ fault, { loopBesideTwice with bodies := [] }.verify = .error (.verification fault) := by
  obtain ⟨v, verified⟩ := exists_of_isOk (show loopBesideTwice.verify.isOk = true by decide +kernel)
  obtain ⟨-, -, -, accepted⟩ := verified_code_never_stuck loopBesideTwice
  obtain ⟨same, runs⟩ := accepted v verified
  refine ⟨⟨v, verified, same⟩, fun natives slots x => ?_, fun natives slots depth x => ?_, ?_⟩
  · obtain ⟨-, called⟩ | ⟨stuck, -⟩ := runs natives slots 2 2 _ [x] rfl rfl
    · exact called
    · exact absurd (by decide) stuck
  · have endless : ¬ loopBesideTwice.Returns depth 0 := by
      induction depth with
      | zero => exact False.elim
      | succ depth ih => exact fun returns => ih (returns 0 (by decide))
    obtain ⟨returns, -⟩ | ⟨-, called⟩ := runs natives slots depth 0 _ [x] rfl rfl
    · exact absurd returns endless
    · exact called
  · obtain ⟨-, refused, -⟩ := verified_code_never_stuck { loopBesideTwice with bodies := [] }
    refine refused fun h => ?_
    have owner := (h.owners 0).mpr ⟨_, rfl, rfl⟩
    cases owner

end CompilationUnit
end ExprCompiler
