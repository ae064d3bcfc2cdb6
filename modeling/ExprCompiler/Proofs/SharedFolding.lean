import ExprCompiler.Proofs.FoldedLowering
import ExprCompiler.Proofs.Linearisation

/-! Folding and sharing. The pass along the post-order is the recursion that folds the
operands of a node, then the node, and remembers the image of every node that it has
folded. What is shared does not show in the tree of the result, which is the folded tree.
But sharing is kept: a node has one image, and only images are left below the root, so
that folding never makes a graph larger or its code longer. -/
namespace ExprCompiler

namespace Graph

/-- Folds the nodes below `i` by recursion. A node that is among those that have their
image is not folded again. -/
def foldMemo (g : Graph) (i : Nat) (memo : List Nat × Folding) : List Nat × Folding :=
  if i ∈ memo.1 then memo
  else
    let below := (g.node i).operands.attach.foldl (fun m j => g.foldMemo j.1 m) memo
    (below.1 ++ [i], below.2.step i)
termination_by i
decreasing_by exact g.lt_of_mem j.2

theorem foldMemo_of_mem {g : Graph} {i : Nat} {memo : List Nat × Folding} (known : i ∈ memo.1) :
    g.foldMemo i memo = memo := by
  rw [foldMemo, if_pos known]

theorem foldMemo_of_notMem {g : Graph} {i : Nat} {memo below : List Nat × Folding}
    (new : i ∉ memo.1)
    (operands : (g.node i).operands.foldl (fun m j => g.foldMemo j m) memo = below) :
    g.foldMemo i memo = (below.1 ++ [i], below.2.step i) := by
  have whole : (g.node i).operands.attach.foldl (fun m j => g.foldMemo j.1 m) memo = below := by
    rw [← operands]
    exact List.foldl_attach (f := fun m j => g.foldMemo j m)
  rw [foldMemo, if_neg new, whole]

def passAlong (g : Graph) (vs : List Visit) : List Nat × Folding :=
  (vs.filterMap Visit.left?, (vs.filterMap Visit.left?).foldl Folding.step (.start g))

theorem passAlong_concat {g : Graph} {v : Visit} (open_ : v.left? = none) (vs : List Visit) :
    g.passAlong (vs ++ [v]) = g.passAlong vs := by
  simp [passAlong, open_]

theorem passAlong_leave (g : Graph) (vs : List Visit) (i : Nat) :
    g.passAlong (vs ++ [.leave i]) = ((g.passAlong vs).1 ++ [i], (g.passAlong vs).2.step i) := by
  simp [passAlong]

theorem Walks.foldMemo_eq {g : Graph} {past new : List Visit} {is : List Nat}
    (h : g.Walks past is new) :
    is.foldl (fun m j => g.foldMemo j m) (g.passAlong past) = g.passAlong (past ++ new) := by
  induction h with
  | nil => simp
  | @again past i is rest done _ ih =>
    have known : i ∈ (g.passAlong past).1 := Visit.mem_filterMap_left.mpr done
    rw [List.foldl_cons, foldMemo_of_mem known, List.append_cons, ← ih, passAlong_concat rfl]
  | @enter past i is below rest fresh _ _ ihBelow ih =>
    have new : i ∉ (g.passAlong past).1 := mt Visit.mem_filterMap_left.mp fresh
    rw [passAlong_concat rfl] at ihBelow
    rw [Visit.append_enter_leave_append, ← ih, Visit.append_enter_leave, passAlong_leave,
      List.foldl_cons, foldMemo_of_notMem new ihBelow]

theorem foldMemo_start (g : Graph) (root : Nat) :
    g.foldMemo root ([], .start g) = (g.postorder root, g.folding root) :=
  (g.walks_visits root).foldMemo_eq

theorem reaches_of_ge {g : Graph} {i k : Nat} (hi : g.size ≤ i) (below : g.Reaches i k) :
    k = i := by
  rcases below.cases with rfl | ⟨j, edge, -⟩
  · rfl
  · rw [g.node_of_ge hi] at edge
    cases edge

theorem expr_image_folding {g : Graph} {root i : Nat} (below : g.Reaches root i) :
    (g.folding root).graph.expr ((g.folding root).image i) = (g.expr i).foldConstants := by
  by_cases hr : root < g.size
  · exact (g.sound_folding hr).expr_image i (mem_postorder.mpr below)
  · rw [reaches_of_ge (Nat.not_lt.mp hr) below]
    exact g.expr_foldConstants root

/-- The memoised recursion is the pass. The images that it remembers have the folded
trees of their nodes, and so has the folded root: its tree follows from the tree of the
root alone. -/
theorem memoised_folding_folds_trees (g : Graph) (root : Nat) :
    g.foldMemo root ([], .start g) = (g.postorder root, g.folding root) ∧
    (∀ i, g.Reaches root i →
      (g.folding root).graph.expr ((g.folding root).image i) = (g.expr i).foldConstants) ∧
    (g.foldConstants root).1.expr (g.foldConstants root).2 = (g.expr root).foldConstants ∧
    ∀ (g' : Graph) (root' : Nat), g'.expr root' = g.expr root →
      (g'.foldConstants root').1.expr (g'.foldConstants root').2 =
        (g.foldConstants root).1.expr (g.foldConstants root).2 := by
  refine ⟨g.foldMemo_start root, fun i => expr_image_folding, g.expr_foldConstants root, ?_⟩
  intro g' root' same
  rw [expr_foldConstants, expr_foldConstants, same]

end Graph

def sharedSquare : Graph :=
  ⟨#[.var ⟨0, "x"⟩, .const 1.0, .const 2.0, .binary .mul 1 2, .binary .add 0 3, .binary .mul 4 4],
    by decide⟩

def unsharedSquare : Graph :=
  ⟨#[.var ⟨0, "x"⟩, .const 1.0, .const 2.0, .binary .mul 1 2, .binary .add 0 3, .const 1.0,
    .const 2.0, .binary .mul 5 6, .binary .add 0 7, .binary .mul 4 8], by decide⟩

theorem squares_memoised_folding_folds_trees :
    unsharedSquare.expr 9 = sharedSquare.expr 5 ∧
      (sharedSquare.foldConstants 5).1.node (sharedSquare.foldConstants 5).2 = .binary .mul 7 7 ∧
      (unsharedSquare.foldConstants 9).1.node (unsharedSquare.foldConstants 9).2 =
        .binary .mul 11 13 ∧
      (unsharedSquare.foldConstants 9).1.expr (unsharedSquare.foldConstants 9).2 =
        (sharedSquare.foldConstants 5).1.expr (sharedSquare.foldConstants 5).2 := by
  have same : unsharedSquare.expr 9 = sharedSquare.expr 5 := by
    simp [Graph.expr_eq_toExpr, unsharedSquare, sharedSquare, Graph.node, Node.toExpr]
  refine ⟨same, by decide +kernel, by decide +kernel, ?_⟩
  exact (sharedSquare.memoised_folding_folds_trees 5).2.2.2 unsharedSquare 9 same

namespace Folding

variable {g : Graph} {s : Folding} {done : List Nat} {i k : Nat}

theorem Follows.reaches_image (h : Follows g done s) (hi : i ∈ done)
    (below : s.graph.Reaches (s.image i) k) : ∃ j, g.Reaches i j ∧ s.image j = k := by
  induction i using g.node_induction generalizing k with
  | step i ih =>
    have deeper (j : Nat) (edge : j ∈ (g.node i).operands)
        (below : s.graph.Reaches (s.image j) k) : ∃ l, g.Reaches i l ∧ s.image l = k := by
      obtain ⟨l, path, same⟩ := ih j edge (h.closed i hi j edge) below
      exact ⟨l, path.head edge, same⟩
    cases h.image i hi with
    | mapped node _ =>
      rcases below.cases with same | ⟨j, edge, below⟩
      · exact ⟨i, .refl g i, same⟩
      · rw [node, Node.operands_map] at edge
        obtain ⟨j, inside, rfl⟩ := List.mem_map.mp edge
        exact deeper j inside below
    | constant _ node _ =>
      obtain ⟨c, node⟩ := node
      rcases below.cases with same | ⟨j, edge, -⟩
      · exact ⟨i, .refl g i, same⟩
      · rw [node] at edge
        cases edge
    | @doubleNeg a kind inner =>
      -- The image is not the node's own but stands below that of its operand.
      apply deeper a (by simp [kind, Node.operands])
      exact below.head (by simp [inner, Node.operands])
    | @left op a b c kind _ same =>
      apply deeper a (by simp [kind, Node.operands])
      rwa [← same]
    | @right op a b c kind _ same =>
      apply deeper b (by simp [kind, Node.operands])
      rwa [← same]

theorem image_foldl_step {is : List Nat} (other : i ∉ is) (s : Folding) :
    (is.foldl step s).image i = s.image i := by
  induction is generalizing s with
  | nil => rfl
  | cons k is ih =>
    rw [List.mem_cons, not_or] at other
    rw [List.foldl_cons, ih other.2]
    exact (s.step_step k).image_of_ne other.1

end Folding

namespace Graph

variable {g : Graph} {root i j k : Nat}

theorem nodup_postorder (g : Graph) (root : Nat) : (g.postorder root).Nodup := by
  rw [postorder_eq]
  exact nodup_appendNew List.nodup_nil

theorem image_of_prefix {done rest : List Nat} (split : g.postorder root = done ++ rest)
    (hi : i ∈ done) :
    (done.foldl Folding.step (.start g)).image i = (g.folding root).image i := by
  have distinct := g.nodup_postorder root
  rw [split] at distinct
  have other : i ∉ rest := fun later => List.disjoint_of_nodup_append distinct hi later
  rw [folding, split, List.foldl_append, Folding.image_foldl_step other]

theorem exists_image_of_reaches
    (below : (g.folding root).graph.Reaches ((g.folding root).image root) k) :
    ∃ i, g.Reaches root i ∧ (g.folding root).image i = k := by
  by_cases hr : root < g.size
  · exact (g.follows_folding hr).reaches_image (mem_postorder.mpr (.refl g root)) below
  · rw [g.folding_of_ge (Nat.not_lt.mp hr)] at below ⊢
    exact ⟨k, below, rfl⟩

theorem encard_reaches_folding_le (g : Graph) (root : Nat) :
    {k | (g.folding root).graph.Reaches ((g.folding root).image root) k}.encard ≤
      {i | g.Reaches root i}.encard := by
  calc
    _ ≤ ((g.folding root).image '' {i | g.Reaches root i}).encard :=
      Set.encard_le_encard fun k below => exists_image_of_reaches below
    _ ≤ _ := Set.encard_image_le _ _

theorem root_lt_of_call (below : g.Reaches root i) (call : (g.node i).called?.isSome) :
    root < g.size := by
  by_contra outside
  have constant := g.node_of_ge (Nat.not_lt.mp outside)
  rw [reaches_of_ge (Nat.not_lt.mp outside) below, constant] at call
  cases call

theorem image_call (below : g.Reaches root i) (call : (g.node i).called?.isSome) :
    (g.folding root).graph.node ((g.folding root).image i) =
        (g.node i).map (g.folding root).image ∧
      (g.folding root).graph.Reaches ((g.folding root).image root) ((g.folding root).image i) := by
  have follows := g.follows_folding (root_lt_of_call below call)
  refine ⟨((follows.image i (mem_postorder.mpr below)).mapped_of_call call).1, ?_⟩
  have member : i ∈ g.treeCalls root := List.mem_filter.mpr ⟨g.mem_treePostorder.mpr below, call⟩
  have image := List.mem_map_of_mem (f := (g.folding root).image) member
  rw [← treeCalls_image follows (mem_postorder.mpr (.refl g root))] at image
  exact (mem_treePostorder _).mp (List.mem_filter.mp image).1

theorem eq_of_image_call (below : g.Reaches root i) (below' : g.Reaches root j)
    (call : (g.node i).called?.isSome) (call' : (g.node j).called?.isSome)
    (same : (g.folding root).image i = (g.folding root).image j) : i = j :=
  (g.follows_folding (root_lt_of_call below call)).distinct i (mem_postorder.mpr below) j
    (mem_postorder.mpr below') call call' same

/-- The image of a variable is a variable, so that what takes an instruction comes from
what took one. -/
theorem computed_folding_subset (g : Graph) (root : Nat) :
    (g.folding root).graph.computed ((g.folding root).image root) ⊆
      (g.computed root).map (g.folding root).image := by
  intro k hk
  obtain ⟨below, plain⟩ := mem_computed.mp hk
  obtain ⟨i, above, rfl⟩ := exists_image_of_reaches below
  apply List.mem_map_of_mem
  refine mem_computed.mpr ⟨above, ?_⟩
  have tree := expr_image_folding above
  rw [expr_eq_toExpr, g.expr_eq_toExpr i] at tree
  cases kind : g.node i with
  | var v =>
    rw [kind] at tree
    cases image : (g.folding root).graph.node ((g.folding root).image i) with
    | var w =>
      rw [image] at plain
      cases plain
    | const _ | neg _ | binary _ _ _ | call _ _ =>
      rw [image] at tree
      cases tree
  | const _ | neg _ | binary _ _ _ | call _ _ => rfl

theorem length_computed_foldConstants_le (g : Graph) (root : Nat) :
    ((g.foldConstants root).1.computed (g.foldConstants root).2).length ≤
      (g.computed root).length := by
  have fewer := ((nodup_computed _ _).subperm (g.computed_folding_subset root)).length_le
  rwa [List.length_map] at fewer

theorem length_callee {folded : Bool} {t : SymbolTable} {id : Nat} {params : List Variable}
    {strategy : Strategy} {u : CompilationUnit}
    (lowered : (g.lower root folded t id params strategy).result = .ok u) :
    ∃ block, (u.function? calleeName).bind (·.block) = some block ∧
      block.instrs.length =
        ((g.lowered root folded).1.computed (g.lowered root folded).2).length := by
  obtain ⟨used, s, -, -, walked, rfl⟩ := lower_cases lowered
  refine ⟨_, by rw [Lowering.function_callee (Lowering.agrees_of_walk walked)]; rfl, ?_⟩
  have emitted := congrArg List.length (Lowering.lists_of_walk walked).instrs
  rw [← computed_eq, List.length_map, List.length_map] at emitted
  exact emitted

/-- Folding keeps sharing. All nodes below a folded root are images of nodes below the
root; every node is folded once, and the image that it gets is final. So no more nodes
are left than there were. Calls keep their names, stay apart and are all left. The code
of a folded expression has no more instructions than that of the expression itself. -/
theorem folding_keeps_sharing (g : Graph) (root : Nat) :
    (∀ k, (g.foldConstants root).1.Reaches (g.foldConstants root).2 k →
      ∃ i, g.Reaches root i ∧ (g.folding root).image i = k) ∧
    ((g.postorder root).Nodup ∧ (∀ i, i ∈ g.postorder root ↔ g.Reaches root i) ∧
      ∀ done rest, g.postorder root = done ++ rest → ∀ i ∈ done,
        (done.foldl Folding.step (.start g)).image i = (g.folding root).image i) ∧
    {k | (g.foldConstants root).1.Reaches (g.foldConstants root).2 k}.encard ≤
      {i | g.Reaches root i}.encard ∧
    (∀ i name args, g.Reaches root i → g.node i = .call name args →
      (g.foldConstants root).1.Reaches (g.foldConstants root).2 ((g.folding root).image i) ∧
        (g.foldConstants root).1.node ((g.folding root).image i) =
          .call name (args.map (g.folding root).image) ∧
        ∀ j name' args', g.Reaches root j → g.node j = .call name' args' →
          (g.folding root).image i = (g.folding root).image j → i = j) ∧
    ∀ t id params strategy u, (g.lower root true t id params strategy).result = .ok u →
      ∃ u' block block', (g.lower root false t id params strategy).result = .ok u' ∧
        (u.function? calleeName).bind (·.block) = some block ∧
        (u'.function? calleeName).bind (·.block) = some block' ∧
        block.instrs.length ≤ block'.instrs.length := by
  refine ⟨fun k => exists_image_of_reaches, ?_, g.encard_reaches_folding_le root, ?_, ?_⟩
  · exact ⟨g.nodup_postorder root, fun i => mem_postorder,
      fun done rest split i hi => image_of_prefix split hi⟩
  · intro i name args below kind
    have call : (g.node i).called?.isSome := by rw [kind]; rfl
    obtain ⟨node, left⟩ := image_call below call
    rw [kind] at node
    refine ⟨left, node, fun j name' args' below' kind' same => ?_⟩
    exact eq_of_image_call below below' call (by rw [kind']; rfl) same
  · intro t id params strategy u lowered
    have accepted := (lower_ok_iff g root true t id).mp ⟨u, lowered⟩
    obtain ⟨u', lowered'⟩ := (lower_ok_iff g root false t id).mpr accepted
    obtain ⟨block, found, length⟩ := length_callee lowered
    obtain ⟨block', found', length'⟩ := length_callee lowered'
    refine ⟨u', block, block', lowered', found, found', ?_⟩
    rw [length, length']
    exact g.length_computed_foldConstants_le root

end Graph

def printedTwice : Graph :=
  ⟨#[.var ⟨0, "x"⟩, .const 1.0, .binary .mul 0 1, .call printName [2], .binary .add 3 3], by decide⟩

theorem printedTwice_folding_keeps_sharing :
    ∃ u u' block block',
      (printedTwice.lower 4 true (.builtinsOnly .standard) 3 [⟨0, "x"⟩] .auto).result = .ok u ∧
      (printedTwice.lower 4 false (.builtinsOnly .standard) 3 [⟨0, "x"⟩] .auto).result = .ok u' ∧
      (u.function? calleeName).bind (·.block) = some block ∧
      (u'.function? calleeName).bind (·.block) = some block' ∧
      block.instrs.length ≤ block'.instrs.length ∧
      (printedTwice.foldConstants 4).1.node ((printedTwice.folding 4).image 3) =
        .call printName [0] ∧
      {k | (printedTwice.foldConstants 4).1.Reaches (printedTwice.foldConstants 4).2 k}.encard ≤
        {i | printedTwice.Reaches 4 i}.encard := by
  obtain ⟨u, lowered⟩ := exists_of_isOk (show
    (printedTwice.lower 4 true (.builtinsOnly .standard) 3 [⟨0, "x"⟩] .auto).result.isOk = true by
      decide +kernel)
  obtain ⟨-, -, fewer, calls, shorter⟩ := printedTwice.folding_keeps_sharing 4
  have below : printedTwice.Reaches 4 3 :=
    .head (show 3 ∈ (printedTwice.node 4).operands by decide) (.refl _ 3)
  have printed := (calls 3 printName [2] below (by decide)).2.1
  obtain ⟨u', block, block', lowered', found, found', length⟩ := shorter _ _ _ _ u lowered
  have operand : (printedTwice.folding 4).image 2 = 0 := by decide +kernel
  rw [List.map_singleton, operand] at printed
  exact ⟨u, u', block, block', lowered, lowered', found, found', length, printed, fewer⟩

end ExprCompiler
