import ExprCompiler.Code.Unit
import ExprCompiler.Error

/-! Verification of units, also of units that no lowering made. `faults` lists
what is wrong with a unit in the order of the checks; the first fault is
reported. A unit without faults has one well-typed body for each function of its
own, and every call meets the declaration it names. -/
namespace ExprCompiler

def Instr.type? (references : List FunctionRef) (types : List Ty) : Instr → Option Ty
  | .const _ => some .f64
  | .neg a => if types[a]? = some .f64 then some .f64 else none
  | .binary _ a b => if types[a]? = some .f64 ∧ types[b]? = some .f64 then some .f64 else none
  | .call reference args =>
    match references[reference]? with
    | some r =>
      if args.map (types[·]?) = r.signature.params.map some then r.signature.returns.head? else none
    | none => none
  | .bufferAddress => some .i64
  | .load base _ => if types[base]? = some .i64 then some .f64 else none

def Instr.types? (references : List FunctionRef) (types : List Ty) : List Instr → Option (List Ty)
  | [] => some types
  | instr :: rest =>
    match instr.type? references types with
    | some ty => Instr.types? references (types ++ [ty]) rest
    | none => none

/-- A block fits its function when it takes the function's parameters, every
instruction fits, and it ends by returning what the function declares. -/
def Block.fits (b : Block) (signature : Signature) (references : List FunctionRef) : Bool :=
  decide (b.params = signature.params) &&
    match Instr.types? references b.params b.instrs, b.returned with
    | some types, some vs => decide (vs.map (types[·]?) = signature.returns.map some)
    | _, _ => false

namespace CompilationUnit

def bodyCount (u : CompilationUnit) (index : Nat) : Nat :=
  (u.bodies.filter (·.1 = index)).length

def declarationFaults (u : CompilationUnit) (index : Nat) (d : Declaration) :
    List VerificationFault :=
  (match d.linkage with
    | .own => if u.bodyCount index = 1 then [] else [.bodyCount d.name (u.bodyCount index)]
    | .imported => if u.bodyCount index = 0 then [] else [.importWithBody d.name]) ++
    if d.signature.returns = [.f64] then [] else [.returnType d.name d.signature]

def referenceFaults (u : CompilationUnit) (name : String) (k : Nat) (r : FunctionRef) :
    List VerificationFault :=
  match r.target with
  | .library => [.libraryReference name k]
  | .declaration space index =>
    match if space = 0 then u.declarations[index]? else none with
    | none => [.missingReference name k space index]
    | some d =>
      if r.signature = d.signature then [] else [.callSignature name d.name r.signature d.signature]

def bodyFaults (u : CompilationUnit) (index : Nat) (b : Body) : List VerificationFault :=
  match u.declarations[index]? with
  | none => [.undeclaredBody index]
  | some d =>
    (if b.signature = d.signature then [] else [.bodySignature d.name b.signature d.signature]) ++
      (match b.block with
        | none => [.noEntryBlock d.name]
        | some block =>
          if block.fits b.signature b.references then [] else [.illTyped d.name]) ++
      b.references.zipIdx.flatMap fun (r, k) => u.referenceFaults d.name k r

def faults (u : CompilationUnit) : List VerificationFault :=
  u.declarations.zipIdx.flatMap (fun (d, k) => u.declarationFaults k d) ++
    u.bodies.flatMap fun (k, b) => u.bodyFaults k b

end CompilationUnit

structure VerifiedUnit where
  unit : CompilationUnit
  sound : unit.faults = []

def CompilationUnit.verify (u : CompilationUnit) : Except Error VerifiedUnit :=
  match h : u.faults with
  | [] => .ok ⟨u, h⟩
  | fault :: _ => .error (.verification fault)

end ExprCompiler
