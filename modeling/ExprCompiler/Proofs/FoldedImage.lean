import ExprCompiler.Proofs.Unfolding

/-! Where the image of a node comes from. Folding turns a node into the same node
over the images of its operands, into a constant when its operands are constants,
or into a node that stands for an operand. In no case is a call dropped, added,
moved or merged with another: the calls of a folded graph are the images of the
calls, in the same order. -/
namespace ExprCompiler

namespace Node

theorem map_congr {n : Node} {f f' : Nat → Nat} (same : ∀ j ∈ n.operands, f j = f' j) :
    n.map f = n.map f' := by
  cases n with
  | var v => rfl
  | const c => rfl
  | neg a => simp [map, same a (by simp [operands])]
  | binary op a b => simp [map, same a (by simp [operands]), same b (by simp [operands])]
  | call name args => simpa [map, operands] using same

theorem map_of_fixed {n : Node} {f : Nat → Nat} (fixed : n.operands.map f = n.operands) :
    n.map f = n := by
  have same : ∀ j ∈ n.operands, f j = id j :=
    List.map_inj_left.mp (fixed.trans (List.map_id _).symm)
  rw [map_congr same]
  cases n <;> simp [map]

@[simp] theorem called?_map (n : Node) (f : Nat → Nat) : (n.map f).called? = n.called? := by
  cases n <;> rfl

end Node

namespace Folding

/-- All that one step of folding can do. -/
inductive Step (s : Folding) (i : Nat) : Folding → Prop
  | same (fixed : (s.graph.node i).operands.map s.image = (s.graph.node i).operands) : Step s i s
  | rebuild (inside : ∀ j ∈ ((s.graph.node i).map s.image).operands, j < s.graph.size) :
      Step s i (s.build i ((s.graph.node i).map s.image) inside)
  | constant {c : Double} (noCall : (s.graph.node i).called? = none)
      (operands : ∀ j ∈ (s.graph.node i).operands, ∃ c, s.graph.node (s.image j) = .const c)
      (inside : ∀ j ∈ (Node.const c).operands, j < s.graph.size) :
      Step s i (s.build i (.const c) inside)
  | doubleNeg {a b : Nat} (kind : s.graph.node i = .neg a)
      (inner : s.graph.node (s.image a) = .neg b) (inside : b < s.graph.size) :
      Step s i (s.keep i b inside)
  | left {op : BinaryOp} {a b : Nat} {c : Double} (kind : s.graph.node i = .binary op a b)
      (neutral : s.graph.node (s.image b) = .const c) (inside : s.image a < s.graph.size) :
      Step s i (s.keep i (s.image a) inside)
  | right {op : BinaryOp} {a b : Nat} {c : Double} (kind : s.graph.node i = .binary op a b)
      (neutral : s.graph.node (s.image a) = .const c) (inside : s.image b < s.graph.size) :
      Step s i (s.keep i (s.image b) inside)

theorem step_rebuild (s : Folding) (i : Nat) : Step s i (s.rebuild i) := by
  unfold Folding.rebuild
  split
  · next fixed => exact .same fixed
  · exact .rebuild _

theorem node_of_constant? {n : Node} {c : Double} (h : n.constant? = some c) : n = .const c := by
  cases n with
  | const x =>
    cases h
    rfl
  | var _ | neg _ | binary _ _ _ | call _ _ => cases h

theorem step_step (s : Folding) (i : Nat) : Step s i (s.step i) := by
  unfold Folding.step
  split
  · next v kind => exact .same (by simp [kind, Node.operands])
  · next c kind => exact .same (by simp [kind, Node.operands])
  · next a kind =>
    split
    · next c kind' =>
      refine .constant (by rw [kind]; rfl) ?_ _
      intro j hj
      rw [kind] at hj
      rw [List.mem_singleton.mp hj]
      exact ⟨c, kind'⟩
    · next b kind' => exact .doubleNeg kind kind' _
    · exact s.step_rebuild i
  · next op a b kind =>
    split
    · next c reduced =>
      obtain ⟨x, y, hx, hy, -⟩ := BinaryOp.reduce_eq_value reduced
      refine .constant (by rw [kind]; rfl) ?_ _
      intro j hj
      rw [kind] at hj
      rcases List.mem_cons.mp hj with rfl | hj
      · exact ⟨x, node_of_constant? hx⟩
      · rw [List.mem_singleton.mp hj]
        exact ⟨y, node_of_constant? hy⟩
    · next reduced =>
      obtain ⟨y, hy, -⟩ := BinaryOp.reduce_eq_left reduced
      exact .left kind (node_of_constant? hy) _
    · next reduced =>
      obtain ⟨x, hx, -⟩ := BinaryOp.reduce_eq_right reduced
      exact .right kind (node_of_constant? hx) _
    · exact s.step_rebuild i
  · exact s.step_rebuild i

namespace Step

variable {s s' : Folding} {i : Nat}

theorem node_eq (h : Step s i s') {k : Nat} (hk : k < s.graph.size) :
    s'.graph.node k = s.graph.node k := by
  cases h with
  | same _ | doubleNeg _ _ _ | left _ _ _ | right _ _ _ => rfl
  | rebuild inside | constant _ _ inside => exact s.graph.node_push_lt _ inside hk

theorem image_of_ne (h : Step s i s') {j : Nat} (other : j ≠ i) : s'.image j = s.image j := by
  cases h with
  | same _ => rfl
  | doubleNeg _ _ _ | left _ _ _ | right _ _ _ | rebuild _ | constant _ _ _ =>
    exact Assignment.set_of_ne _ _ other

end Step

/-- How the image of a node of `g` comes about. -/
inductive Image (g : Graph) (s : Folding) (i : Nat) : Prop
  | mapped (node : s.graph.node (s.image i) = (g.node i).map s.image)
      (place : s.image i = i ∨ g.size ≤ s.image i)
  | constant (noCall : (g.node i).called? = none) (node : ∃ c, s.graph.node (s.image i) = .const c)
      (operands : ∀ j ∈ (g.node i).operands, ∃ c, s.graph.node (s.image j) = .const c)
  | doubleNeg {a : Nat} (kind : g.node i = .neg a)
      (inner : s.graph.node (s.image a) = .neg (s.image i))
  | left {op : BinaryOp} {a b : Nat} {c : Double} (kind : g.node i = .binary op a b)
      (neutral : s.graph.node (s.image b) = .const c) (same : s.image i = s.image a)
  | right {op : BinaryOp} {a b : Nat} {c : Double} (kind : g.node i = .binary op a b)
      (neutral : s.graph.node (s.image a) = .const c) (same : s.image i = s.image b)

variable {g : Graph} {s s' : Folding} {i : Nat} {done : List Nat}

theorem Image.mono (h : Image g s i)
    (same : ∀ k, k = i ∨ k ∈ (g.node i).operands →
      s'.image k = s.image k ∧ s'.graph.node (s.image k) = s.graph.node (s.image k)) :
    Image g s' i := by
  have here := same i (.inl rfl)
  cases h with
  | mapped node place =>
    refine .mapped ?_ (by rwa [here.1])
    rw [here.1, here.2, node]
    exact Node.map_congr fun k hk => (same k (.inr hk)).1.symm
  | constant noCall node operands =>
    refine .constant noCall (by rwa [here.1, here.2]) ?_
    intro j hj
    rw [(same j (.inr hj)).1, (same j (.inr hj)).2]
    exact operands j hj
  | @doubleNeg a kind inner =>
    have operand := same a (.inr (by simp [kind, Node.operands]))
    exact .doubleNeg kind (by rw [operand.1, operand.2, here.1, inner])
  | @left op a b c kind neutral equal =>
    have first := same a (.inr (by simp [kind, Node.operands]))
    have second := same b (.inr (by simp [kind, Node.operands]))
    exact .left kind (by rw [second.1, second.2, neutral]) (by rw [here.1, first.1, equal])
  | @right op a b c kind neutral equal =>
    have first := same a (.inr (by simp [kind, Node.operands]))
    have second := same b (.inr (by simp [kind, Node.operands]))
    exact .right kind (by rw [first.1, first.2, neutral]) (by rw [here.1, second.1, equal])

theorem Step.image (h : Step s i s') (sound : Sound g done s) (hi : i < g.size) (fresh : i ∉ done) :
    Image g s' i := by
  have node := sound.node_eq i hi
  have other : ∀ j ∈ (g.node i).operands, s'.image j = s.image j :=
    fun j hj => h.image_of_ne (Nat.ne_of_lt (g.lt_of_mem hj))
  have inside : ∀ j ∈ (g.node i).operands, s.image j < s.graph.size :=
    fun j hj => s.image_operand_lt (node ▸ hj)
  have operand : ∀ j ∈ (g.node i).operands,
      s'.graph.node (s'.image j) = s.graph.node (s.image j) :=
    fun j hj => by rw [other j hj, h.node_eq (inside j hj)]
  cases h with
  | same fixed =>
    have self := sound.image_eq i fresh
    refine .mapped ?_ (.inl self)
    rw [self, node, Node.map_of_fixed (node ▸ fixed)]
  | rebuild below =>
    refine .mapped ?_ (.inr ?_)
    · show (s.graph.push _ below).node (s.image.set i s.graph.size i) = _
      rw [Assignment.set_self, Graph.node_push_size]
      exact (congrArg (Node.map s.image) node).trans
        (Node.map_congr fun j hj => (other j hj).symm)
    · show g.size ≤ s.image.set i s.graph.size i
      rw [Assignment.set_self]
      exact sound.size_le
  | @constant c noCall operands below =>
    rw [node] at noCall operands
    refine .constant noCall ⟨c, ?_⟩ fun j hj => by rw [operand j hj]; exact operands j hj
    show (s.graph.push _ below).node (s.image.set i s.graph.size i) = _
    rw [Assignment.set_self, Graph.node_push_size]
  | @doubleNeg a b kind inner below =>
    rw [node] at kind
    refine .doubleNeg kind ?_
    rw [operand a (by simp [kind, Node.operands]), inner]
    exact congrArg Node.neg (Assignment.set_self s.image i b).symm
  | @left op a b c kind neutral below =>
    rw [node] at kind
    refine .left kind (by rw [operand b (by simp [kind, Node.operands]), neutral]) ?_
    rw [other a (by simp [kind, Node.operands])]
    exact Assignment.set_self s.image i _
  | @right op a b c kind neutral below =>
    rw [node] at kind
    refine .right kind (by rw [operand a (by simp [kind, Node.operands]), neutral]) ?_
    rw [other b (by simp [kind, Node.operands])]
    exact Assignment.set_self s.image i _

theorem Image.mapped_of_call (h : Image g s i) (call : (g.node i).called?.isSome) :
    s.graph.node (s.image i) = (g.node i).map s.image ∧ (s.image i = i ∨ g.size ≤ s.image i) := by
  cases h with
  | mapped node place => exact ⟨node, place⟩
  | constant noCall _ _ => simp [noCall] at call
  | doubleNeg kind _ | left kind _ _ | right kind _ _ => simp [kind, Node.called?] at call

/-- What holds when the nodes of a list are done. -/
structure Follows (g : Graph) (done : List Nat) (s : Folding) : Prop where
  sound : Sound g done s
  closed : ∀ i ∈ done, ∀ j ∈ (g.node i).operands, j ∈ done
  image : ∀ i ∈ done, Image g s i
  distinct : ∀ i ∈ done, ∀ j ∈ done, (g.node i).called?.isSome → (g.node j).called?.isSome →
    s.image i = s.image j → i = j

theorem follows_start (g : Graph) : Follows g [] (start g) where
  sound := sound_start g
  closed := by simp
  image := by simp
  distinct := by simp

theorem Follows.image_ne (h : Follows g done s) (taken : Step s i s') (hi : i < g.size)
    (fresh : i ∉ done) (call : (g.node i).called?.isSome) {j : Nat} (hj : j ∈ done)
    (call' : (g.node j).called?.isSome) : s'.image i ≠ s.image j := by
  have node := h.sound.node_eq i hi
  have before : s.image j < s.graph.size :=
    s.image_lt (Nat.lt_of_lt_of_le (h.sound.done_lt j hj) h.sound.size_le)
  have other : j ≠ i := fun equal => fresh (equal ▸ hj)
  cases taken with
  | same _ =>
    have place := ((h.image j hj).mapped_of_call call').2
    rw [h.sound.image_eq i fresh]
    omega
  | rebuild _ =>
    show s.image.set i s.graph.size i ≠ _
    rw [Assignment.set_self]
    omega
  | constant noCall _ _ =>
    rw [node] at noCall
    simp [noCall] at call
  | doubleNeg kind _ _ | left kind _ _ | right kind _ _ =>
    rw [node] at kind
    simp [kind, Node.called?] at call

theorem Follows.step (h : Follows g done s) (hi : i < g.size) (fresh : i ∉ done)
    (operands : ∀ j ∈ (g.node i).operands, j ∈ done) : Follows g (done ++ [i]) (s.step i) := by
  have taken := s.step_step i
  have earlier : ∀ k ∈ done, (s.step i).image k = s.image k ∧
      (s.step i).graph.node (s.image k) = s.graph.node (s.image k) := by
    intro k hk
    have inside := s.image_lt (Nat.lt_of_lt_of_le (h.sound.done_lt k hk) h.sound.size_le)
    exact ⟨taken.image_of_ne fun same => fresh (same ▸ hk), taken.node_eq inside⟩
  refine ⟨h.sound.step hi fresh operands, ?_, ?_, ?_⟩
  · intro k hk j hj
    rcases List.mem_append.mp hk with before | here
    · exact List.mem_append_left _ (h.closed k before j hj)
    · cases List.mem_singleton.mp here
      exact List.mem_append_left _ (operands j hj)
  · intro k hk
    rcases List.mem_append.mp hk with before | here
    · apply (h.image k before).mono
      rintro j (rfl | hj)
      · exact earlier j before
      · exact earlier j (h.closed k before j hj)
    · cases List.mem_singleton.mp here
      exact taken.image h.sound hi fresh
  · intro k hk j hj callK callJ equal
    rcases List.mem_append.mp hk with beforeK | here <;>
      rcases List.mem_append.mp hj with beforeJ | here'
    · rw [(earlier k beforeK).1, (earlier j beforeJ).1] at equal
      exact h.distinct k beforeK j beforeJ callK callJ equal
    · cases List.mem_singleton.mp here'
      rw [(earlier k beforeK).1] at equal
      exact absurd equal.symm (h.image_ne taken hi fresh callJ beforeK callK)
    · cases List.mem_singleton.mp here
      rw [(earlier j beforeJ).1] at equal
      exact absurd equal (h.image_ne taken hi fresh callK beforeJ callJ)
    · rw [List.mem_singleton.mp here, List.mem_singleton.mp here']

end Folding

namespace Graph

theorem follows_folding (g : Graph) {root : Nat} (hr : root < g.size) :
    Folding.Follows g (g.postorder root) (g.folding root) :=
  folding_induction hr (Folding.follows_start g) fun _ _ _ h hi fresh operands =>
    h.step hi fresh operands

def treeCalls (g : Graph) (i : Nat) : List Nat :=
  (g.treePostorder i).filter fun k => (g.node k).called?.isSome

theorem treeCalls_eq (g : Graph) (i : Nat) :
    g.treeCalls i = (g.node i).operands.flatMap g.treeCalls ++
      if (g.node i).called?.isSome then [i] else [] := by
  rw [treeCalls, treePostorder_eq, List.filter_append, List.filter_flatMap, List.filter_singleton,
    Bool.cond_eq_ite]
  rfl

theorem treeCalls_of_const {g : Graph} {i : Nat} {c : Double} (h : g.node i = .const c) :
    g.treeCalls i = [] := by
  rw [treeCalls_eq, h]
  rfl

theorem treeCalls_image {g : Graph} {done : List Nat} {s : Folding}
    (h : Folding.Follows g done s) {i : Nat} (hi : i ∈ done) :
    s.graph.treeCalls (s.image i) = (g.treeCalls i).map s.image := by
  induction i using g.node_induction with
  | step i ih =>
    have below : ∀ j ∈ (g.node i).operands,
        s.graph.treeCalls (s.image j) = (g.treeCalls j).map s.image :=
      fun j hj => ih j hj (h.closed i hi j hj)
    rw [g.treeCalls_eq i]
    cases h.image i hi with
    | mapped node _ =>
      rw [treeCalls_eq, node, Node.operands_map, Node.called?_map, List.flatMap_map,
        List.map_append, List.map_flatMap]
      congr 1
      · simp only [List.flatMap_def, List.map_congr_left below]
      · split <;> rfl
    | constant noCall node operands =>
      obtain ⟨c, node⟩ := node
      have none : ∀ j ∈ (g.node i).operands, (g.treeCalls j).map s.image = [] := by
        intro j hj
        obtain ⟨c', constant⟩ := operands j hj
        rw [← below j hj, treeCalls_of_const constant]
      rw [treeCalls_of_const node, noCall, List.map_append, List.map_flatMap,
        List.flatMap_eq_nil_iff.mpr none]
      rfl
    | @doubleNeg a kind inner =>
      have outer := below a (by simp [kind, Node.operands])
      rw [treeCalls_eq, inner] at outer
      simpa [kind, Node.operands, Node.called?] using outer
    | @left op a b c kind neutral same =>
      have first := below a (by simp [kind, Node.operands])
      have second := below b (by simp [kind, Node.operands])
      rw [treeCalls_of_const neutral] at second
      simp [kind, Node.operands, Node.called?, same, first, ← second]
    | @right op a b c kind neutral same =>
      have first := below a (by simp [kind, Node.operands])
      have second := below b (by simp [kind, Node.operands])
      rw [treeCalls_of_const neutral] at first
      simp [kind, Node.operands, Node.called?, same, second, ← first]

def calledNames (g : Graph) (root : Nat) : List String :=
  (g.postorder root).filterMap fun i => (g.node i).called?

theorem calledNames_eq (g : Graph) (root : Nat) :
    g.calledNames root =
      (appendNew [] (g.treeCalls root)).filterMap fun i => (g.node i).called? := by
  have calls : _ = appendNew [] (g.treeCalls root) :=
    filter_appendNew (fun k => (g.node k).called?.isSome) [] (g.treePostorder root)
  rw [← calls, List.filterMap_filter, calledNames, postorder_eq]
  apply List.filterMap_congr
  intro k _
  cases (g.node k).called? <;> rfl

/-- Folding keeps the sequence of calls. -/
theorem calledNames_foldConstants (g : Graph) (root : Nat) :
    (g.foldConstants root).1.calledNames (g.foldConstants root).2 = g.calledNames root := by
  by_cases hr : root < g.size
  · have follows := g.follows_folding hr
    have done : root ∈ g.postorder root := Visit.mem_filterMap_left.mpr (g.leave_root_mem root)
    have calls : ∀ k ∈ g.treeCalls root, k ∈ g.postorder root ∧ (g.node k).called?.isSome := by
      intro k hk
      obtain ⟨below, call⟩ := List.mem_filter.mp hk
      rw [postorder_eq, mem_appendNew]
      exact ⟨.inr below, call⟩
    have distinct : ∀ x ∈ [] ++ g.treeCalls root, ∀ y ∈ [] ++ g.treeCalls root,
        (g.folding root).image x = (g.folding root).image y → x = y := by
      intro x hx y hy
      exact follows.distinct x (calls x hx).1 y (calls y hy).1 (calls x hx).2 (calls y hy).2
    have images : appendNew [] _ = _ := appendNew_map distinct
    rw [calledNames_eq, calledNames_eq]
    show ((appendNew [] ((g.folding root).graph.treeCalls ((g.folding root).image root))).filterMap
      fun i => ((g.folding root).graph.node i).called?) = _
    rw [treeCalls_image follows done, images, List.filterMap_map]
    apply List.filterMap_congr
    intro k hk
    have call := calls k (by simpa [mem_appendNew] using hk)
    show ((g.folding root).graph.node ((g.folding root).image k)).called? = _
    rw [((follows.image k call.1).mapped_of_call call.2).1, Node.called?_map]
  · rw [g.foldConstants_of_ge (Nat.not_lt.mp hr)]

end Graph
end ExprCompiler
