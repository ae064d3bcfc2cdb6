import ExprCompiler.Code.Signature
import ExprCompiler.Graph.Node

/-! Every way in which an operation can fail, as its cause. The wording is in
the `message` functions alone. -/
namespace ExprCompiler

inductive LoweringFault where
  | tooManyParameters (count : Nat)
  | repeatedParameter (v : Variable)
  | unsupportedCall (name : String) (passed : Nat)
  | knownArity (name : String) (known passed : Nat)
  | declaredArity (name : String) (declared passed : Nat)
deriving DecidableEq

def LoweringFault.message : LoweringFault → String
  | .tooManyParameters count =>
    s!"positional strategy supports at most 8 parameters, got {count}; use Strategy::Buffer"
  | .repeatedParameter v => "variable " ++ v.name ++ " is bound to more than one parameter"
  | .unsupportedCall name passed =>
    s!"intrinsic {name} called with {passed} arguments; only 1 or 2 are supported"
  | .knownArity name known passed =>
    s!"intrinsic {name} takes {known} arguments, called with {passed}"
  | .declaredArity name declared passed =>
    s!"intrinsic {name} called with {passed} arguments after being declared with {declared}"

/-- Why a unit may not be compiled. A reference is given by its number in its
function. -/
inductive VerificationFault where
  | bodyCount (name : String) (count : Nat)
  | importWithBody (name : String)
  | returnType (name : String) (declared : Signature)
  | undeclaredBody (index : Nat)
  | bodySignature (name : String) (body declared : Signature)
  | noEntryBlock (name : String)
  | illTyped (name : String)
  | libraryReference (name : String) (reference : Nat)
  | missingReference (name : String) (reference space index : Nat)
  | callSignature (name target : String) (used declared : Signature)
deriving DecidableEq

def VerificationFault.message : VerificationFault → String
  | .bodyCount name count => s!"local function {name} has {count} bodies"
  | .importWithBody name => s!"import {name} has a body"
  | .returnType name declared => name ++ " must return a single f64, declared " ++ declared.text
  | .undeclaredBody index => s!"body for undeclared function #{index}"
  | .bodySignature name body declared =>
    name ++ ": body signature " ++ body.text ++ " differs from declaration " ++ declared.text
  | .noEntryBlock name => name ++ ": function has no entry block"
  | .illTyped name => name ++ ": BACKEND"
  | .libraryReference name reference =>
    s!"{name}: fn{reference} does not reference a unit declaration"
  | .missingReference name reference space index =>
    s!"{name}: fn{reference} references missing declaration u{space}:{index}"
  | .callSignature name target used declared =>
    name ++ ": call to " ++ target ++ " uses signature " ++ used.text ++ ", declared " ++
      declared.text

/-- What stops running code. Verified code that was entered with the arguments
it declares can only run too deep. -/
inductive MachineFault where
  | tooDeep
  | undefinedValue (value : Nat)
  | missingFunction (index : Nat)
  | absentBody (index : Nat)
  | wrongArity (index expected got : Nat)
  | noReturn (index : Nat)
deriving DecidableEq

def MachineFault.message : MachineFault → String
  | .tooDeep => "call depth exceeded"
  | .undefinedValue value => s!"undefined value v{value}"
  | .missingFunction index => s!"missing function {index}"
  | .absentBody index => s!"function {index} has no body"
  | .wrongArity index expected got =>
    s!"function {index} takes {expected} arguments, called with {got}"
  | .noReturn index => s!"function {index} does not return"

inductive InternalFault where
  | duplicateSymbol (index : Nat) (name : String) (first : Nat)
  | missingBuffer
  | tooManyArguments (count : Nat)
  | machine (fault : MachineFault)
deriving DecidableEq

def InternalFault.message : InternalFault → String
  | .duplicateSymbol index name first =>
    s!"declaration {index} ({name}) became function id funcid{first}"
  | .missingBuffer => "buffer strategy without argument buffer"
  | .tooManyArguments count => s!"positional call with {count} arguments exceeds 8"
  | .machine fault => fault.message

inductive Error where
  | unboundVariable (name : String)
  | lowering (fault : LoweringFault)
  | verification (fault : VerificationFault)
  /-- A symbol that is nowhere, or known but not with the wanted arity. -/
  | unresolvedSymbol (name : String) (wanted : Option Nat)
  | incompatibleDeclaration (name : String)
  | symbolNotFound (name : String)
  | arityMismatch (expected got : Nat)
  | staleBufferAddress
  | danglingEntry
  | functionExists (name : String) (arity : Nat)
  | unsupportedArity (name : String) (arity : Nat)
  | internal (fault : InternalFault)
deriving DecidableEq

def Error.message : Error → String
  | .unboundVariable name => "unbound variable: " ++ name
  | .lowering fault => "lowering error: " ++ fault.message
  | .verification fault => "verification failed: " ++ fault.message
  | .unresolvedSymbol name none => "unresolved symbol: " ++ name
  | .unresolvedSymbol name (some wanted) => s!"unresolved symbol: {name}/{wanted}"
  | .incompatibleDeclaration name => "compilation error: incompatible declaration of " ++ name
  | .symbolNotFound name => "symbol not found in compiled entry: " ++ name
  | .arityMismatch expected got => s!"arity mismatch: expected {expected}, got {got}"
  | .staleBufferAddress => "argument buffer address changed since lowering"
  | .danglingEntry => "compiled entry used after its engine was freed or dropped"
  | .functionExists name arity => s!"intrinsic already exists: {name}/{arity}"
  | .unsupportedArity name arity =>
    s!"intrinsic {name} has arity {arity}; only 1 or 2 are supported"
  | .internal fault => "jit internal error: " ++ fault.message

end ExprCompiler
