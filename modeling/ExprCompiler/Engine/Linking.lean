import ExprCompiler.Code.Verification
import ExprCompiler.Engine.Machine
import ExprCompiler.Symbol.Table

/-! Linking a verified unit: its imports are looked up, its symbols have to be
distinct, and every declaration gets what stands behind it. -/
namespace ExprCompiler

/-- An imported name is a symbol as it is, one of the unit's own is set apart
from it. -/
def Declaration.symbol (d : Declaration) : Linkage × String := (d.linkage, d.name)

def CompilationUnit.implementation (u : CompilationUnit) (t : SymbolTable) (index : Nat)
    (d : Declaration) : Except Error Function :=
  match d.linkage with
  | .imported =>
    (t.resolve d.name d.signature.params.length).map fun r =>
      .native d.name d.signature.params.length r.native
  | .own =>
    match u.bodies.lookup index with
    | some body => .ok (.code d.signature.params.length body)
    | none => .ok .absent

def CompilationUnit.implementations (u : CompilationUnit) (t : SymbolTable) (index : Nat) :
    List Declaration → Except Error (List Function)
  | [] => .ok []
  | d :: ds => do
    let f ← u.implementation t index d
    let fs ← u.implementations t (index + 1) ds
    return f :: fs

def firstClash? (seen : List Declaration) : List Declaration → Option Error
  | [] => none
  | d :: ds =>
    match seen.findIdx? (·.symbol = d.symbol), seen.find? (·.symbol = d.symbol) with
    | some first, some earlier =>
      if earlier.signature = d.signature then
        some (.internal (.duplicateSymbol seen.length d.name first))
      else some (.incompatibleDeclaration d.name)
    | _, _ => firstClash? (seen ++ [d]) ds

/-- The code of a unit. All imports are looked up before symbols are compared. -/
def CompilationUnit.link (u : CompilationUnit) (t : SymbolTable) :
    Except Error (List Function) := do
  let functions ← u.implementations t 0 u.declarations
  match firstClash? [] u.declarations with
  | some e => .error e
  | none => return functions

def CompilationUnit.linkNotes (u : CompilationUnit) (t : SymbolTable) : List Note :=
  match u.imports.find? fun d => !(t.resolve d.name d.signature.params.length).isOk with
  | some d => t.resolveNotes d.name d.signature.params.length
  | none => []

end ExprCompiler
