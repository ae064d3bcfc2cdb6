import ExprCompiler.Graph.Walk

/-! The variables of a graph, in the order in which the walk first meets them. -/
namespace ExprCompiler

def Variable.distinct : List Variable → List Variable
  | [] => []
  | v :: vs => v :: (Variable.distinct vs).filter (·.id ≠ v.id)

def Node.asVar? : Node → Option Variable
  | .var v => some v
  | _ => none

def Graph.vars (g : Graph) (root : Nat) : List Variable :=
  Variable.distinct ((g.preorder root).filterMap fun i => (g.node i).asVar?)

end ExprCompiler
