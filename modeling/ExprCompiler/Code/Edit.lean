import ExprCompiler.Code.Unit

/-! Edits of single parts of a unit. They keep nothing consistent: what they
leave behind is for verification to judge. -/
namespace ExprCompiler

/-- A declaration is named by its number, a body by its place among the bodies,
a reference by its number in its body. -/
inductive Edit where
  | addDeclaration (name : String) (linkage : Linkage) (params returns : List Ty)
  | dropDeclaration (declaration : Nat)
  | setLinkage (declaration : Nat) (linkage : Linkage)
  | rename (declaration : Nat) (name : String)
  | setParams (declaration : Nat) (types : List Ty)
  | setReturns (declaration : Nat) (types : List Ty)
  | setFast (declaration : Nat)
  | dropBody (body : Nat)
  | copyBody (body declaration : Nat)
  | moveBody (body declaration : Nat)
  | setStrategy (strategy : Strategy)
  | emptyBody (body : Nat)
  | setBodyParams (body : Nat) (types : List Ty)
  | dropReturn (body : Nat)
  | refLibrary (body reference : Nat)
  | refDeclaration (body reference space index : Nat)

namespace CompilationUnit

def editDeclaration (u : CompilationUnit) (k : Nat) (f : Declaration → Declaration) :
    CompilationUnit :=
  { u with declarations := u.declarations.modify k f }

def editSignature (u : CompilationUnit) (k : Nat) (f : Signature → Signature) : CompilationUnit :=
  u.editDeclaration k fun d => { d with signature := f d.signature }

def editBody (u : CompilationUnit) (k : Nat) (f : Body → Body) : CompilationUnit :=
  { u with bodies := u.bodies.modify k fun (i, b) => (i, f b) }

def editReference (u : CompilationUnit) (k r : Nat) (target : Target) : CompilationUnit :=
  u.editBody k fun b =>
    { b with references := b.references.modify r fun ref => { ref with target } }

def edit (u : CompilationUnit) : Edit → CompilationUnit
  | .addDeclaration name linkage params returns =>
    { u with declarations := u.declarations ++ [⟨name, linkage, ⟨params, returns, .systemV⟩⟩] }
  | .dropDeclaration k => { u with declarations := u.declarations.eraseIdx k }
  | .setLinkage k linkage => u.editDeclaration k fun d => { d with linkage }
  | .rename k name => u.editDeclaration k fun d => { d with name }
  | .setParams k types => u.editSignature k fun s => { s with params := types }
  | .setReturns k types => u.editSignature k fun s => { s with returns := types }
  | .setFast k => u.editSignature k fun s => { s with conv := .fast }
  | .dropBody k => { u with bodies := u.bodies.eraseIdx k }
  | .copyBody k owner =>
    { u with bodies := u.bodies ++ (u.bodies[k]?.map fun (_, b) => (owner, b)).toList }
  | .moveBody k owner => { u with bodies := u.bodies.modify k fun (_, b) => (owner, b) }
  | .setStrategy strategy => { u with strategy }
  | .emptyBody k => u.editBody k fun b => { b with block := none }
  | .setBodyParams k types =>
    u.editBody k fun b => { b with signature := { b.signature with params := types } }
  | .dropReturn k =>
    u.editBody k fun b => { b with block := b.block.map ({ · with returned := none }) }
  | .refLibrary k r => u.editReference k r .library
  | .refDeclaration k r space index => u.editReference k r (.declaration space index)

end CompilationUnit
end ExprCompiler
