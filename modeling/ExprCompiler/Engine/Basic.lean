import ExprCompiler.Code.Lowering
import ExprCompiler.Engine.Linking

/-! Engines own compiled code. Compiling a unit adds one module to an engine and
gives an entry to it; freeing takes all modules away at once and starts a new
generation, so that the entries of older generations can be told. -/
namespace ExprCompiler

inductive OptLevel where
  | none
  | speed
  | speedAndSize
deriving DecidableEq

def OptLevel.text : OptLevel → String
  | .none => "None"
  | .speed => "Speed"
  | .speedAndSize => "SpeedAndSize"

/-- The level and the verifier tune the code generator and change no result. -/
structure Config where
  level : OptLevel
  verifier : Bool
  host : Bool
deriving DecidableEq

namespace Config

def default : Config := ⟨.speed, true, true⟩

def text (c : Config) : String :=
  "JitConfig \x7b opt_level: " ++ c.level.text ++ ", enable_verifier: " ++ toString c.verifier ++
    ", host_symbols: " ++ toString c.host ++ " \x7d"

end Config

structure Module where
  unit : Nat
  functions : List Function

structure Engine where
  symbols : SymbolTable
  modules : List Module
  generation : UInt64

/-- What compiling hands out: the numbers of the unit's own functions, and the
engine and generation that hold their code. -/
structure Entry where
  unit : Nat
  engine : Nat
  generation : UInt64
  functions : List (String × Nat)
  arity : Nat
  strategy : Strategy
  buffer : Option ArgBuffer
  baked : Option Int
deriving DecidableEq

namespace Engine

def new (platform : Platform) (c : Config) : Engine := ⟨.new platform c.host, [], 0⟩

def ownFunctions (u : CompilationUnit) : List (String × Nat) :=
  u.declarations.zipIdx.filterMap fun (d, k) => if d.linkage = .own then some (d.name, k) else none

/-- Links a unit and keeps its code. `self` is the number of this engine. -/
def compile (e : Engine) (self : Nat) (v : VerifiedUnit) : Engine × Except Error Entry :=
  match v.unit.link e.symbols with
  | .error err => (e, .error err)
  | .ok functions =>
    ({ e with modules := ⟨v.unit.id, functions⟩ :: e.modules },
     .ok
      { unit := v.unit.id
        engine := self
        generation := e.generation
        functions := ownFunctions v.unit
        arity := v.unit.arity
        strategy := v.unit.strategy
        buffer := v.unit.buffer
        baked := v.unit.baked })

def freeMemory (e : Engine) : Engine := { e with modules := [], generation := e.generation + 1 }

def code (e : Engine) (unit : Nat) : List Function :=
  ((e.modules.find? (·.unit = unit)).map (·.functions)).getD []

end Engine

namespace Entry

/-- An entry is live while its engine is there and in the same generation. -/
def isLive (entry : Entry) (owner : Option Engine) : Bool :=
  match owner with
  | some e => e.generation = entry.generation
  | none => false

def locate (entry : Entry) (owner : Option Engine) (name : String) :
    Except Error (Engine × Nat) :=
  match owner with
  | some e =>
    if e.generation = entry.generation then
      match entry.functions.lookup name with
      | some index => .ok (e, index)
      | none => .error (.symbolNotFound name)
    else .error .danglingEntry
  | none => .error .danglingEntry

end Entry

/-- Changes behind the back of an entry. -/
inductive Tampering where
  | shift
  | unshift
  | forget
  | dropBuffer
deriving DecidableEq

def Entry.tamper (entry : Entry) : Tampering → Entry
  | .shift => { entry with baked := entry.baked.map (· + 8) }
  | .unshift => { entry with baked := entry.baked.map (· - 8) }
  | .forget => { entry with baked := none }
  | .dropBuffer => { entry with buffer := none }

end ExprCompiler
