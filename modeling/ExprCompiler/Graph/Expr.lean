import ExprCompiler.Graph.Basic
import ExprCompiler.Number.Text

/-! Expression trees: what is left of a graph when sharing is forgotten. A tree
is what a graph displays and what it means. Everything that is computed from a
tree is a `fold`: one function for each kind of node, applied bottom-up. -/
namespace ExprCompiler

inductive Expr where
  | var (v : Variable)
  | const (value : Double)
  | neg (operand : Expr)
  | binary (op : BinaryOp) (left right : Expr)
  | call (name : String) (args : List Expr)

@[induction_eliminator]
theorem Expr.induction {P : Expr → Prop} (var : ∀ v, P (.var v)) (const : ∀ c, P (.const c))
    (neg : ∀ a, P a → P (.neg a)) (binary : ∀ op a b, P a → P b → P (.binary op a b))
    (call : ∀ name args, (∀ a ∈ args, P a) → P (.call name args)) (e : Expr) : P e := by
  refine @Expr.rec P (fun args => ∀ a ∈ args, P a) var const neg binary call ?_ ?_ e
  · simp
  · intro a args here others
    simpa using ⟨here, others⟩

structure Expr.Algebra (α : Type) where
  var : Variable → α
  const : Double → α
  neg : α → α
  binary : BinaryOp → α → α → α
  call : String → List α → α

mutual

def Expr.fold (f : Expr.Algebra α) : Expr → α
  | .var v => f.var v
  | .const c => f.const c
  | .neg a => f.neg (a.fold f)
  | .binary op a b => f.binary op (a.fold f) (b.fold f)
  | .call name args => f.call name (Expr.foldAll f args)

def Expr.foldAll (f : Expr.Algebra α) : List Expr → List α
  | [] => []
  | e :: es => e.fold f :: Expr.foldAll f es

end

namespace Expr

theorem foldAll_eq_map (f : Algebra α) (es : List Expr) : foldAll f es = es.map (fold f) := by
  induction es with
  | nil => rfl
  | cons e es ih => simp [foldAll, ih]

theorem fold_call (f : Algebra α) (name : String) (args : List Expr) :
    (call name args).fold f = f.call name (args.map (fold f)) := by
  rw [fold, foldAll_eq_map]

def text : Expr → String :=
  fold
    { var := Variable.name
      const := plainText
      neg := fun a => "-" ++ a
      binary := fun op a b => "(" ++ a ++ " " ++ op.symbol ++ " " ++ b ++ ")"
      call := fun name args => name ++ "(" ++ ", ".intercalate args ++ ")" }

def outline (e : Expr) (depth : Nat) : List String :=
  let line (depth : Nat) (label : String) : String :=
    String.ofList (List.replicate depth '-') ++ label
  e.fold
    { var := fun v d => [line d ("Variable(" ++ v.name ++ ")")]
      const := fun c d => [line d ("Constant(" ++ plainText c ++ ")")]
      neg := fun a d => line d "Neg" :: a (d + 1)
      binary := fun op a b d => line d ("Binary(" ++ op.symbol ++ ")") :: (a (d + 1) ++ b (d + 1))
      call := fun name args d =>
        line d ("Call(" ++ name ++ "/" ++ toString args.length ++ ")") ::
          args.flatMap fun a => a (d + 1) }
    depth

def dump (e : Expr) : String := String.join ((e.outline 0).map (· ++ "\n"))

def vars : Expr → List Variable :=
  fold
    { var := fun v => [v]
      const := fun _ => []
      neg := id
      binary := fun _ a b => a ++ b
      call := fun _ args => args.flatten }

end Expr

/-- The tree below a node, every shared node unfolded at each use. -/
def Graph.expr (g : Graph) (i : Nat) : Expr :=
  match _h : g.node i with
  | .var v => .var v
  | .const c => .const c
  | .neg a => .neg (g.expr a)
  | .binary op a b => .binary op (g.expr a) (g.expr b)
  | .call name args => .call name (args.attach.map fun a => g.expr a.1)
termination_by i
decreasing_by
  all_goals
    apply g.lt_of_mem
    rw [_h]
    simp [Node.operands]
  exact a.2

theorem Graph.expr_eq (g : Graph) (i : Nat) :
    g.expr i =
      match g.node i with
      | .var v => .var v
      | .const c => .const c
      | .neg a => .neg (g.expr a)
      | .binary op a b => .binary op (g.expr a) (g.expr b)
      | .call name args => .call name (args.map g.expr) := by
  rw [expr]
  split <;> simp_all

end ExprCompiler
