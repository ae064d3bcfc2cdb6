import ExprCompiler.Symbol.Builtin
import ExprCompiler.Error
import ExprCompiler.Log

/-! Symbol tables: what a called name stands for. The built-in functions come
first, then the registered ones, then the host's if the table may look there. -/
namespace ExprCompiler

inductive Origin where
  | builtin
  | registered
  | host
deriving DecidableEq

structure Resolution where
  origin : Origin
  native : Native

structure SymbolTable where
  platform : Platform
  registered : List Intrinsic
  host : Bool

namespace SymbolTable

def new (platform : Platform) (host : Bool) : SymbolTable := ⟨platform, [], host⟩

def builtinsOnly (platform : Platform) : SymbolTable := new platform false

def registered? (t : SymbolTable) (name : String) : Option Intrinsic :=
  t.registered.find? (·.name = name)

def known? (t : SymbolTable) (name : String) : Option Intrinsic :=
  (t.platform.builtin? name).or (t.registered? name)

/-- A new function takes one or two arguments and a name that is not known; a
name is never taken over. -/
def register (t : SymbolTable) (i : Intrinsic) : SymbolTable × Except Error Unit :=
  if i.arity < 1 ∨ 2 < i.arity then (t, .error (.unsupportedArity i.name i.arity))
  else
    match t.known? i.name with
    | some existing => (t, .error (.functionExists i.name existing.arity))
    | none => ({ t with registered := t.registered ++ [i] }, .ok ())

/-- Registers all functions of a list whose names are not registered yet. The first
failure ends it and keeps what was added. -/
def registerAll (t : SymbolTable) : List Intrinsic → SymbolTable × Except Error Nat
  | [] => (t, .ok 0)
  | i :: rest =>
    if (t.registered? i.name).isSome then t.registerAll rest
    else
      match t.register i with
      | (t', .error e) => (t', .error e)
      | (t', .ok _) =>
        let (final, added) := t'.registerAll rest
        (final, added.map (· + 1))

def clear (t : SymbolTable) : SymbolTable := { t with registered := [] }

/-- The function that a call with `arity` arguments reaches. A known function
of another arity hides the host's. -/
def resolve (t : SymbolTable) (name : String) (arity : Nat) : Except Error Resolution :=
  let fit (origin : Origin) (i : Intrinsic) : Except Error Resolution :=
    if i.arity = arity then .ok ⟨origin, i.native⟩ else .error (.unresolvedSymbol name (some arity))
  match t.platform.builtin? name, t.registered? name with
  | some i, _ => fit .builtin i
  | none, some i => fit .registered i
  | none, none =>
    match if t.host then t.platform.symbol? name else none with
    | some native => .ok ⟨.host, native⟩
    | none => .error (.unresolvedSymbol name none)

def resolveNotes (t : SymbolTable) (name : String) (arity : Nat) : List Note :=
  match t.known? name with
  | some i => if i.arity = arity then [] else [.arityConflict name i.arity arity]
  | none => []

/-- The arity that an evaluated call has to have: the known one, else one or
two, whichever is nearer. -/
def expectedArity (t : SymbolTable) (name : String) (passed : Nat) : Nat :=
  match t.known? name with
  | some i => i.arity
  | none => max 1 (min passed 2)

def resolveCall (t : SymbolTable) (name : String) (passed : Nat) : Except Error Resolution :=
  if passed ≠ t.expectedArity name passed then
    .error (.arityMismatch (t.expectedArity name passed) passed)
  else t.resolve name passed

end SymbolTable
end ExprCompiler
