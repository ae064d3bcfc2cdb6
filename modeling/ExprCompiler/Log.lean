import ExprCompiler.Graph.Expr
import ExprCompiler.Symbol.Builtin
import ExprCompiler.Error

/-! What operations report besides their result. A note is data; its text is
made only when it is shown, since the text of a shared node can be far longer
than the graph. -/
namespace ExprCompiler

inductive Note where
  | printed (x : Double)
  | declaredImport (name : String) (arity index : Nat)
  | reusedNode (graph : Graph) (node : Nat)
  | registering (name : String) (arity : Nat) (home : String)
  | arityConflict (name : String) (known passed : Nat)
  | freedModules (count : Nat)

namespace Note

/-- Printing is shown always, all else only to someone who traces. -/
def isTrace : Note → Bool
  | .printed _ => false
  | _ => true

def text : Note → String
  | .printed x => "printd: " ++ plainText x
  | .declaredImport name arity index => s!"declared import {name}/{arity} as decl {index}"
  | .reusedNode graph node => "reusing shared node " ++ (graph.expr node).text
  | .registering name arity home => s!"registering {name}/{arity} from {home}"
  | .arityConflict name known passed =>
    s!"{name} takes {known} arguments, call site passes {passed}"
  | .freedModules count => s!"freed {count} JIT modules"

def ofCall (c : Call) : Option Note :=
  if c.name = printName then c.args.head?.map .printed else none

end Note

structure Traced (α : Type) where
  notes : List Note
  result : Except Error α

end ExprCompiler
