import ExprCompiler.Engine.Basic

/-! Callables: entries that are called with a fixed number of doubles. -/
namespace ExprCompiler

structure Callable where
  entry : Entry
  params : List Variable
deriving DecidableEq

namespace Callable

def ofEntry (entry : Entry) (arity : Nat) : Except Error Callable :=
  if entry.arity = arity then .ok ⟨entry, []⟩ else .error (.arityMismatch entry.arity arity)

def arity (c : Callable) : Nat := c.entry.arity

def tamper (c : Callable) (change : Tampering) : Callable :=
  { c with entry := c.entry.tamper change }

/-- What a call leaves, also if it fails: the callable, the calls that were
executed, and the value or what went wrong. -/
structure Return where
  callable : Callable
  calls : List Call
  result : Except Error Double

def refused (c : Callable) (err : Error) : Return := ⟨c, [], .error err⟩

/-- Runs a located function. What stops it is an internal error, and none of its
calls is reported. -/
def enter (c : Callable) (code : List Function) (slots : List Double) (index : Nat)
    (args : List Double) : Return :=
  match Machine.run code slots index args with
  | .ok (value, calls) => ⟨c, calls, .ok value⟩
  | .error fault => ⟨c, [], .error (.internal (.machine fault))⟩

def fill (c : Callable) (buffer : ArgBuffer) : Callable :=
  { c with entry := { c.entry with buffer := some buffer } }

/-- Through the buffer: the arguments are written only when the buffer is there
and is the one that the code reads. -/
def invokeBuffer (c : Callable) (owner : Option Engine) (args : List Double) : Return :=
  match c.entry.locate owner callerName with
  | .error err => c.refused err
  | .ok (e, index) =>
    match c.entry.buffer with
    | none => c.refused (.internal .missingBuffer)
    | some buffer =>
      if c.entry.baked ≠ some 0 then c.refused .staleBufferAddress
      else
        let filled := buffer.write args
        (c.fill filled).enter (e.code c.entry.unit) filled.values index []

def invokePositional (c : Callable) (owner : Option Engine) (args : List Double) : Return :=
  match c.entry.locate owner calleeName with
  | .error err => c.refused err
  | .ok (e, index) =>
    if maxPositional < args.length then c.refused (.internal (.tooManyArguments args.length))
    else c.enter (e.code c.entry.unit) ((c.entry.buffer.map (·.values)).getD []) index args

def invoke (c : Callable) (owner : Option Engine) (args : List Double) : Return :=
  if args.length ≠ c.arity then c.refused (.arityMismatch c.arity args.length)
  else
    match c.entry.strategy with
    | .buffer => c.invokeBuffer owner args
    | _ => c.invokePositional owner args

end Callable

/-- Verifies, compiles and wraps a unit. Code that was compiled stays with the
engine, also if it cannot be wrapped. -/
def Engine.install (e : Engine) (self : Nat) (unit : CompilationUnit) (params : List Variable) :
    Engine × Except Error Callable :=
  match unit.verify with
  | .error err => (e, .error err)
  | .ok verified =>
    let (e', compiled) := e.compile self verified
    (e', do
      let callable ← Callable.ofEntry (← compiled) params.length
      return { callable with params })

def Engine.compileExpr (e : Engine) (self : Nat) (g : Graph) (root : Nat) (folded : Bool)
    (id : Nat) (params : List Variable) (strategy : Strategy) : Engine × Traced Callable :=
  let lowered := g.lower root folded e.symbols id params strategy
  match lowered.result with
  | .error err => (e, ⟨lowered.notes, .error err⟩)
  | .ok unit =>
    let (e', result) := e.install self unit params
    (e', ⟨lowered.notes ++ unit.linkNotes e.symbols, result⟩)

end ExprCompiler
