import ExprCompiler.Graph.Folding
import ExprCompiler.Proofs.Walk

/-! Folding a graph folds its tree. The invariant of the pass is that the image
of every node done so far has the folded tree of that node; the nodes of the
given graph keep their numbers and their meaning. -/
namespace ExprCompiler

def Node.toExpr (f : Nat → Expr) : Node → Expr
  | .var v => .var v
  | .const c => .const c
  | .neg a => .neg (f a)
  | .binary op a b => .binary op (f a) (f b)
  | .call name args => .call name (args.map f)

theorem Node.toExpr_congr {n : Node} {f f' : Nat → Expr} (same : ∀ j ∈ n.operands, f j = f' j) :
    n.toExpr f = n.toExpr f' := by
  cases n with
  | var v => rfl
  | const c => rfl
  | neg a => simp [toExpr, same a (by simp [operands])]
  | binary op a b => simp [toExpr, same a (by simp [operands]), same b (by simp [operands])]
  | call name args => simpa [toExpr, operands] using same

@[simp] theorem Node.toExpr_map (n : Node) (h : Nat → Nat) (f : Nat → Expr) :
    (n.map h).toExpr f = n.toExpr fun j => f (h j) := by
  cases n <;> simp [map, toExpr]

namespace Graph

theorem expr_eq_toExpr (g : Graph) (i : Nat) : g.expr i = (g.node i).toExpr g.expr := by
  rw [g.expr_eq i]
  cases g.node i <;> rfl

theorem expr_congr {g g' : Graph} {n : Nat} (same : ∀ i < n, g'.node i = g.node i) :
    ∀ i < n, g'.expr i = g.expr i := by
  intro i
  induction i using g.node_induction with
  | step i ih =>
    intro hi
    rw [g'.expr_eq_toExpr, g.expr_eq_toExpr, same i hi]
    exact Node.toExpr_congr fun j hj => ih j hj (Nat.lt_trans (g.lt_of_mem hj) hi)

theorem expr_push_size (g : Graph) (n : Node) (h : ∀ j ∈ n.operands, j < g.size) :
    (g.push n h).expr g.size = n.toExpr g.expr := by
  rw [expr_eq_toExpr, node_push_size]
  exact Node.toExpr_congr fun j hj =>
    expr_congr (n := g.size) (fun i hi => g.node_push_lt n h hi) j (h j hj)

theorem constant?_node (g : Graph) (i : Nat) : (g.node i).constant? = (g.expr i).constant? := by
  rw [g.expr_eq_toExpr]
  cases g.node i <;> rfl

end Graph

theorem Expr.foldConstants_neg (a : Expr) :
    (Expr.neg a).foldConstants = a.foldConstants.foldNeg := rfl

theorem Expr.foldConstants_binary (op : BinaryOp) (a b : Expr) :
    (Expr.binary op a b).foldConstants = .foldBinary op a.foldConstants b.foldConstants := rfl

theorem Expr.foldConstants_call (name : String) (args : List Expr) :
    (Expr.call name args).foldConstants = .call name (args.map Expr.foldConstants) :=
  Expr.fold_call _ name args

theorem Visit.mem_filterMap_left {i : Nat} {vs : List Visit} :
    i ∈ vs.filterMap Visit.left? ↔ .leave i ∈ vs := by
  rw [List.mem_filterMap]
  constructor
  · rintro ⟨v, hv, left⟩
    cases v <;> simp_all [Visit.left?]
  · exact fun h => ⟨.leave i, h, rfl⟩

namespace Folding

/-- What holds of a folding in which the nodes of a list are done. -/
structure Sound (g : Graph) (done : List Nat) (s : Folding) : Prop where
  size_le : g.size ≤ s.graph.size
  node_eq : ∀ i < g.size, s.graph.node i = g.node i
  done_lt : ∀ i ∈ done, i < g.size
  image_eq : ∀ i, i ∉ done → s.image i = i
  expr_image : ∀ i ∈ done, s.graph.expr (s.image i) = (g.expr i).foldConstants

theorem sound_start (g : Graph) : Sound g [] (start g) where
  size_le := Nat.le_refl _
  node_eq := fun _ _ => rfl
  done_lt := by simp
  image_eq := fun _ _ => rfl
  expr_image := by simp

variable {g : Graph} {done : List Nat} {s : Folding} {i : Nat}

theorem Sound.expr_eq (h : Sound g done s) {i : Nat} (hi : i < g.size) :
    s.graph.expr i = g.expr i :=
  Graph.expr_congr h.node_eq i hi

theorem Sound.extend {s' : Folding} (h : Sound g done s) (hi : i < g.size)
    (size_le : s.graph.size ≤ s'.graph.size)
    (node_eq : ∀ k < s.graph.size, s'.graph.node k = s.graph.node k)
    (others : ∀ j, j ≠ i → s'.image j = s.image j)
    (expr_image : s'.graph.expr (s'.image i) = (g.expr i).foldConstants) :
    Sound g (done ++ [i]) s' where
  size_le := Nat.le_trans h.size_le size_le
  node_eq := fun k hk => (node_eq k (Nat.lt_of_lt_of_le hk h.size_le)).trans (h.node_eq k hk)
  done_lt := by
    intro j hj
    obtain earlier | same := List.mem_append.mp hj
    · exact h.done_lt j earlier
    · rwa [List.mem_singleton.mp same]
  image_eq := by
    intro j hj
    rw [List.mem_append, List.mem_singleton, not_or] at hj
    rw [others j hj.2, h.image_eq j hj.1]
  expr_image := by
    intro j hj
    by_cases same : j = i
    · rw [same, expr_image]
    · have earlier : j ∈ done := by simpa [same] using hj
      have inside : s.image j < s.graph.size :=
        s.image_lt (Nat.lt_of_lt_of_le (h.done_lt j earlier) h.size_le)
      rw [others j same, Graph.expr_congr node_eq _ inside, h.expr_image j earlier]

theorem Sound.same (h : Sound g done s) (hi : i < g.size) (fresh : i ∉ done)
    (folded : g.expr i = (g.expr i).foldConstants) : Sound g (done ++ [i]) s := by
  apply h.extend hi (Nat.le_refl _) (fun _ _ => rfl) (fun _ _ => rfl)
  rw [h.image_eq i fresh, h.expr_eq hi]
  exact folded

theorem Sound.keep (h : Sound g done s) (hi : i < g.size) {k : Nat} (hk : k < s.graph.size)
    (folded : s.graph.expr k = (g.expr i).foldConstants) :
    Sound g (done ++ [i]) (s.keep i k hk) := by
  apply h.extend hi
  · exact Nat.le_refl s.graph.size
  · exact fun _ _ => rfl
  · exact fun j hj => Assignment.set_of_ne _ _ hj
  · show s.graph.expr (s.image.set i k i) = _
    rw [Assignment.set_self, folded]

theorem Sound.build (h : Sound g done s) (hi : i < g.size) {n : Node}
    (hn : ∀ j ∈ n.operands, j < s.graph.size)
    (folded : n.toExpr s.graph.expr = (g.expr i).foldConstants) :
    Sound g (done ++ [i]) (s.build i n hn) := by
  apply h.extend hi
  · show s.graph.size ≤ (s.graph.push n hn).size
    rw [Graph.size_push]
    exact Nat.le_succ _
  · exact fun k hk => s.graph.node_push_lt n hn hk
  · exact fun j hj => Assignment.set_of_ne _ _ hj
  · show (s.graph.push n hn).expr (s.image.set i s.graph.size i) = _
    rw [Assignment.set_self, Graph.expr_push_size, folded]

theorem Sound.rebuild (h : Sound g done s) (hi : i < g.size) (fresh : i ∉ done)
    (operands : ∀ j ∈ (g.node i).operands, j ∈ done)
    (folded : (g.node i).toExpr (fun j => (g.expr j).foldConstants) = (g.expr i).foldConstants) :
    Sound g (done ++ [i]) (s.rebuild i) := by
  have images : (s.graph.node i).toExpr (fun j => s.graph.expr (s.image j)) =
      (g.expr i).foldConstants := by
    rw [h.node_eq i hi, ← folded]
    exact Node.toExpr_congr fun j hj => h.expr_image j (operands j hj)
  unfold Folding.rebuild
  split
  · next unchanged =>
    apply h.same hi fresh
    rw [← images, ← h.expr_eq hi, Graph.expr_eq_toExpr]
    apply Node.toExpr_congr
    intro j hj
    have fixed : s.image j = id j :=
      List.map_inj_left.mp (unchanged.trans (List.map_id _).symm) j hj
    rw [fixed, id]
  · apply h.build hi
    rw [Node.toExpr_map, images]

theorem Sound.step (h : Sound g done s) (hi : i < g.size) (fresh : i ∉ done)
    (operands : ∀ j ∈ (g.node i).operands, j ∈ done) : Sound g (done ++ [i]) (s.step i) := by
  have tree := g.expr_eq_toExpr i
  have image : ∀ j ∈ (g.node i).operands, (g.expr j).foldConstants = s.graph.expr (s.image j) :=
    fun j hj => (h.expr_image j (operands j hj)).symm
  have rebuilt := h.rebuild hi fresh operands
  rw [← h.node_eq i hi] at tree image rebuilt
  unfold Folding.step
  split
  · next v kind => exact h.same hi fresh (by rw [tree, kind]; rfl)
  · next c kind => exact h.same hi fresh (by rw [tree, kind]; rfl)
  · next a kind =>
    have folded : (g.expr i).foldConstants = (s.graph.expr (s.image a)).foldNeg := by
      rw [tree, kind, ← image a (by simp [kind, Node.operands])]
      rfl
    have operand := s.graph.expr_eq_toExpr (s.image a)
    split
    · next c kind' =>
      apply h.build hi
      rw [folded, operand, kind']
      rfl
    · next b kind' =>
      apply h.keep hi
      rw [folded, operand, kind']
      rfl
    · next noConst noNeg =>
      apply rebuilt
      rw [folded, kind]
      simp only [Node.toExpr, image a (by simp [kind, Node.operands]), operand]
      cases other : s.graph.node (s.image a) with
      | const c => exact absurd other (noConst c)
      | neg b => exact absurd other (noNeg b)
      | var _ | binary _ _ _ | call _ _ => rfl
  · next op a b kind =>
    have left := image a (by simp [kind, Node.operands])
    have right := image b (by simp [kind, Node.operands])
    have folded : (g.expr i).foldConstants =
        .foldBinary op (s.graph.expr (s.image a)) (s.graph.expr (s.image b)) := by
      rw [tree, kind, ← left, ← right]
      rfl
    unfold Expr.foldBinary at folded
    rw [← Graph.constant?_node, ← Graph.constant?_node] at folded
    split
    · next c reduced =>
      apply h.build hi
      rw [folded, reduced]
      rfl
    · next reduced =>
      apply h.keep hi
      rw [folded, reduced]
    · next reduced =>
      apply h.keep hi
      rw [folded, reduced]
    · next reduced =>
      apply rebuilt
      rw [folded, reduced, kind]
      simp only [Node.toExpr, left, right]
  · next name args kind =>
    apply rebuilt
    rw [tree, kind]
    simp only [Node.toExpr, Expr.foldConstants_call, List.map_map]
    rfl

end Folding

namespace Graph

variable {g : Graph} {P : List Nat → Folding → Prop}

/-- Along visits in order every node that is left finds its operands done. -/
theorem foldl_step_induction
    (next : ∀ done s i, P done s → i < g.size → i ∉ done →
      (∀ j ∈ (g.node i).operands, j ∈ done) → P (done ++ [i]) (s.step i))
    {past vs : List Visit} {s : Folding} (h : P (past.filterMap Visit.left?) s)
    (ordered : g.Ordered past vs) (inside : ∀ k, .leave k ∈ vs → k < g.size) :
    P ((past ++ vs).filterMap Visit.left?) ((vs.filterMap Visit.left?).foldl Folding.step s) := by
  induction vs generalizing past s with
  | nil => simpa using h
  | cons v vs ih =>
    have rest : ∀ k, .leave k ∈ vs → k < g.size := fun k hk => inside k (by simp [hk])
    rw [List.append_cons]
    cases v with
    | enter k => exact ih (by simpa [List.filterMap_cons, Visit.left?] using h) ordered.2 rest
    | again k => exact ih (by simpa [List.filterMap_cons, Visit.left?] using h) ordered.2 rest
    | leave k =>
      obtain ⟨-, unleft, operands⟩ := ordered.1
      apply ih _ ordered.2 rest
      rw [List.filterMap_append]
      apply next _ s k h (inside k (by simp))
      · rwa [Visit.mem_filterMap_left]
      · exact fun j hj => Visit.mem_filterMap_left.mpr (operands j hj)

theorem folding_induction {root : Nat} (hr : root < g.size) (start : P [] (.start g))
    (next : ∀ done s i, P done s → i < g.size → i ∉ done →
      (∀ j ∈ (g.node i).operands, j ∈ done) → P (done ++ [i]) (s.step i)) :
    P (g.postorder root) (g.folding root) := by
  have inside : ∀ k, .leave k ∈ g.visits root → k < g.size := by
    intro k left
    obtain ⟨i, hi, path⟩ := (g.walks_visits root).reaches_of_leave left
    rw [List.mem_singleton.mp hi] at path
    exact Nat.lt_of_le_of_lt path.le hr
  have first : P (([] : List Visit).filterMap Visit.left?) (.start g) := start
  exact foldl_step_induction next first (g.ordered_visits root) inside

theorem sound_folding (g : Graph) {root : Nat} (hr : root < g.size) :
    Folding.Sound g (g.postorder root) (g.folding root) :=
  folding_induction hr (Folding.sound_start g) fun _ _ _ sound hi fresh operands =>
    sound.step hi fresh operands

theorem folding_of_ge (g : Graph) {root : Nat} (hr : g.size ≤ root) :
    g.folding root = .start g := by
  -- A number that names no node reads as a constant, which folding leaves alone.
  have only : g.visits root = [.enter root, .leave root] := by
    rw [visits, walk_eq]
    simp [g.node_of_ge hr, Node.operands]
  have fixed : (Folding.start g).step root = Folding.start g := by
    have kind : (Folding.start g).graph.node root = .const 0 := g.node_of_ge hr
    unfold Folding.step
    split <;> simp_all
  rw [folding, postorder, only]
  exact fixed

theorem foldConstants_of_ge (g : Graph) {root : Nat} (hr : g.size ≤ root) :
    g.foldConstants root = (g, root) := by
  rw [foldConstants, g.folding_of_ge hr]
  rfl

/-- Folding a graph folds the tree below its root. -/
theorem expr_foldConstants (g : Graph) (root : Nat) :
    (g.foldConstants root).1.expr (g.foldConstants root).2 = (g.expr root).foldConstants := by
  by_cases hr : root < g.size
  · have left := Visit.mem_filterMap_left.mpr (g.leave_root_mem root)
    exact (g.sound_folding hr).expr_image root left
  · have outside : g.size ≤ root := Nat.not_lt.mp hr
    rw [g.foldConstants_of_ge outside, g.expr_eq_toExpr, g.node_of_ge outside]
    rfl

end Graph
end ExprCompiler
