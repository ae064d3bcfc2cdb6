import ExprCompiler.Graph.Walk
import ExprCompiler.Graph.Expr

/-! Folding constants and neutral operands.

A graph is folded along the post-order of a root: when a node's turn comes its
operands have their images. The folded graph extends the given one, so a node
that nothing below it changed is its own image, and sharing is kept because
every node has one image. `Expr.foldConstants` does the same on a tree, where
there is nothing to share. -/
namespace ExprCompiler

inductive Reduction where
  | value (c : Double)
  | left
  | right
  | none
deriving DecidableEq

def isConstant (c : Double) : Option Double → Bool
  | some x => x.equals c
  | none => false

/-- Arithmetic on operands of which some are constants: two constants are
computed; subtracting zero and multiplying or dividing by one do nothing. -/
def BinaryOp.reduce (op : BinaryOp) (x y : Option Double) : Reduction :=
  match x, y with
  | some a, some b => .value (op.apply a b)
  | _, _ =>
    match op with
    | .add => .none
    | .sub => if isConstant 0.0 y then .left else .none
    | .mul => if isConstant 1.0 y then .left else if isConstant 1.0 x then .right else .none
    | .div => if isConstant 1.0 y then .left else .none

def Node.constant? : Node → Option Double
  | .const c => some c
  | _ => none

def Expr.constant? : Expr → Option Double
  | .const c => some c
  | _ => none

def Expr.foldNeg : Expr → Expr
  | .const c => .const (-c)
  | .neg a => a
  | a => .neg a

def Expr.foldBinary (op : BinaryOp) (a b : Expr) : Expr :=
  match op.reduce a.constant? b.constant? with
  | .value c => .const c
  | .left => a
  | .right => b
  | .none => .binary op a b

def Expr.foldConstants : Expr → Expr :=
  Expr.fold
    { var := .var
      const := .const
      neg := Expr.foldNeg
      binary := Expr.foldBinary
      call := .call }

structure Folding where
  graph : Graph
  image : Assignment Nat
  image_eq_or_lt : ∀ j, image j = j ∨ image j < graph.size

namespace Folding

theorem image_lt (s : Folding) {j : Nat} (h : j < s.graph.size) : s.image j < s.graph.size := by
  cases s.image_eq_or_lt j with
  | inl same => rwa [same]
  | inr below => exact below

def start (g : Graph) : Folding := ⟨g, id, fun _ => .inl rfl⟩

def keep (s : Folding) (i k : Nat) (hk : k < s.graph.size) : Folding where
  graph := s.graph
  image := s.image.set i k
  image_eq_or_lt := by
    intro j
    by_cases h : j = i
    · simp [h, hk]
    · simpa [Assignment.set_of_ne _ _ h] using s.image_eq_or_lt j

def build (s : Folding) (i : Nat) (n : Node) (hn : ∀ j ∈ n.operands, j < s.graph.size) :
    Folding where
  graph := s.graph.push n hn
  image := s.image.set i s.graph.size
  image_eq_or_lt := by
    intro j
    rw [Graph.size_push]
    by_cases h : j = i
    · simp [h]
    · rw [Assignment.set_of_ne _ _ h]
      exact (s.image_eq_or_lt j).imp_right Nat.lt_succ_of_lt

theorem image_operand_lt (s : Folding) {i j : Nat} (h : j ∈ (s.graph.node i).operands) :
    s.image j < s.graph.size :=
  s.image_lt (Nat.lt_trans (s.graph.lt_of_mem h) (s.graph.lt_size_of_mem h))

/-- The same node over the images of its operands. If those are the operands
themselves the node stays its own image. -/
def rebuild (s : Folding) (i : Nat) : Folding :=
  if (s.graph.node i).operands.map s.image = (s.graph.node i).operands then s
  else
    s.build i ((s.graph.node i).map s.image) (by
      intro j hj
      rw [Node.operands_map] at hj
      obtain ⟨k, hk, rfl⟩ := List.mem_map.mp hj
      exact s.image_operand_lt hk)

def step (s : Folding) (i : Nat) : Folding :=
  match h : s.graph.node i with
  | .var _ | .const _ => s
  | .neg a =>
    match ha : s.graph.node (s.image a) with
    | .const c => s.build i (.const (-c)) (by simp [Node.operands])
    | .neg b =>
      s.keep i b (by
        have hb : b ∈ (s.graph.node (s.image a)).operands := by simp [ha, Node.operands]
        exact Nat.lt_trans (s.graph.lt_of_mem hb) (s.graph.lt_size_of_mem hb))
    | _ => s.rebuild i
  | .binary op a b =>
    match op.reduce (s.graph.node (s.image a)).constant? (s.graph.node (s.image b)).constant? with
    | .value c => s.build i (.const c) (by simp [Node.operands])
    | .left => s.keep i (s.image a) (s.image_operand_lt (i := i) (by simp [h, Node.operands]))
    | .right => s.keep i (s.image b) (s.image_operand_lt (i := i) (by simp [h, Node.operands]))
    | .none => s.rebuild i
  | .call _ _ => s.rebuild i

end Folding

def Graph.folding (g : Graph) (root : Nat) : Folding :=
  (g.postorder root).foldl Folding.step (Folding.start g)

def Graph.foldConstants (g : Graph) (root : Nat) : Graph × Nat :=
  ((g.folding root).graph, (g.folding root).image root)

end ExprCompiler
