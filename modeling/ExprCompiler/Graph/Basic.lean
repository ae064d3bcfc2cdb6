import ExprCompiler.Graph.Node

/-! Expression graphs: a table of nodes in which every operand stands before
the node that uses it. There is no cycle to look for, recursion on a node's
number ends, and a new node never changes what an old one means. The number of
a node is its identity. -/
namespace ExprCompiler

structure Graph where
  nodes : Array Node
  operands_lt : ∀ i (h : i < nodes.size), ∀ j ∈ nodes[i].operands, j < i

namespace Graph

def empty : Graph := ⟨#[], by simp⟩

def size (g : Graph) : Nat := g.nodes.size

/-- The node of that number; a number outside the table reads as a zero. -/
def node (g : Graph) (i : Nat) : Node := g.nodes.getD i (.const 0)

theorem node_of_lt (g : Graph) {i : Nat} (h : i < g.nodes.size) : g.node i = g.nodes[i] := by
  simp [node, h]

theorem node_of_ge (g : Graph) {i : Nat} (h : g.size ≤ i) : g.node i = .const 0 := by
  have h' : g.nodes.size ≤ i := h
  simp [node, h']

theorem lt_size_of_mem (g : Graph) {i j : Nat} (h : j ∈ (g.node i).operands) : i < g.size := by
  by_cases hi : i < g.size
  · exact hi
  · simp [g.node_of_ge (Nat.not_lt.mp hi), Node.operands] at h

theorem lt_of_mem (g : Graph) {i j : Nat} (h : j ∈ (g.node i).operands) : j < i := by
  have hi := g.lt_size_of_mem h
  rw [g.node_of_lt hi] at h
  exact g.operands_lt i hi j h

def push (g : Graph) (n : Node) (h : ∀ j ∈ n.operands, j < g.size) : Graph where
  nodes := g.nodes.push n
  operands_lt := by
    intro i hi j hj
    rw [Array.getElem_push] at hj
    split at hj
    · next hlt => exact g.operands_lt i hlt j hj
    · next hge =>
      have : i = g.nodes.size := by simp at hi; omega
      rw [this]; exact h j hj

@[simp] theorem size_push (g : Graph) (n : Node) (h) : (g.push n h).size = g.size + 1 := by
  simp [push, size]

theorem node_push_lt (g : Graph) (n : Node) (h) {i : Nat} (hi : i < g.size) :
    (g.push n h).node i = g.node i := by
  have hi' : i < g.nodes.size := hi
  simp [push, node, Array.getElem_push, hi', Nat.lt_succ_of_lt hi']

@[simp] theorem node_push_size (g : Graph) (n : Node) (h) : (g.push n h).node g.size = n := by
  simp [push, node, size]

def push? (g : Graph) (n : Node) : Option Graph :=
  if h : ∀ j ∈ n.operands, j < g.size then some (g.push n h) else none

end Graph
end ExprCompiler
