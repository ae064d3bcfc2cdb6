import ExprCompiler.Session.Basic

/-! What each command does. A command that names something that is not there is
not answered. An error of the program is an answer, and the session goes on. -/
namespace ExprCompiler

structure Outcome where
  session : Session
  notes : List Note
  result : Except Error Answer

namespace Session

def answer (s : Session) (a : Answer) : Outcome := ⟨s, [], .ok a⟩

def evaluated (s : Session) (r : List Call × Except Error Double) : Outcome :=
  ⟨s, r.1.filterMap Note.ofCall, r.2.map .value⟩

def askGraph (s : Session) (node : Option Nat) (f : Nat → Answer) : Option Outcome :=
  (s.node? node).map fun i => s.answer (f i)

def fold (s : Session) (node : Option Nat) : Option Outcome :=
  (s.node? node).map fun i =>
    let (g, j) := s.graph.foldConstants i
    ⟨{ s with graph := g, nodes := s.nodes ++ [j] }, [],
      .ok (.folded (j = i) (g.expr j).text (s.listNodes g j) s.nodes.length)⟩

def register (s : Session) (r : TableRef) (i : Intrinsic) : Option Outcome :=
  (s.table? r).map fun t =>
    let (t', result) := t.register i
    ⟨s.setTable r t', [], result.map fun _ => .done⟩

def registerCollected (s : Session) (r : TableRef) (name : String) : Option Outcome :=
  (s.table? r).map fun t =>
    let (t', tried) := t.registerCollected name
    ⟨s.setTable r t', tried.notes, tried.result.map fun _ => .done⟩

def registerSeveral (s : Session) (r : TableRef) (names : List String) : Option Outcome :=
  (s.table? r).map fun t =>
    let (t', tried) := t.registerSeveral names
    ⟨s.setTable r t', tried.notes, tried.result.map fun _ => .done⟩

def registerAllCollected (s : Session) (r : TableRef) : Option Outcome :=
  (s.table? r).map fun t =>
    let (t', added) := t.registerAllCollected
    ⟨s.setTable r t', [], added.map .added⟩

def resolve (s : Session) (r : TableRef) (name : String) (arity : Nat) : Option Outcome :=
  (s.table? r).map fun t =>
    ⟨s, t.resolveNotes name arity, (t.resolve name arity).map fun found => .resolved found.origin⟩

def freeMemory (s : Session) (k : Nat) : Option Outcome :=
  (s.engine? k).map fun e =>
    ⟨s.setEngine k (some e.freeMemory), [.freedModules e.modules.length], .ok .done⟩

/-- An engine frees its code when it goes. -/
def dropEngine (s : Session) (k : Nat) : Option Outcome :=
  (s.engine? k).map fun e => ⟨s.setEngine k none, [.freedModules e.modules.length], .ok .done⟩

def lower (s : Session) (k : Nat) (node : Option Nat) (params : List Nat) (strategy : Strategy) :
    Option Outcome := do
  let e ← s.engine? k
  let i ← s.node? node
  let vs ← s.params? params
  let r := s.graph.lower i s.folded e.symbols s.nextUnit vs strategy
  match r.result with
  | .ok u =>
    return ⟨{ s with units := s.units ++ [some u], nextUnit := s.nextUnit + 1 }, r.notes,
      .ok (.unit s.units.length u)⟩
  | .error err => return ⟨s, r.notes, .error err⟩

def verify (s : Session) (k : Nat) : Option Outcome := do
  let u ← (s.units[k]?).join
  -- The unit is used up whether or not it is sound.
  let rest := { s with units := s.units.set k none }
  match u.verify with
  | .ok v =>
    return ⟨{ rest with verified := s.verified ++ [some v] }, [],
      .ok (.verified s.verified.length v.unit)⟩
  | .error err => return ⟨rest, [], .error err⟩

def compile (s : Session) (k v : Nat) : Option Outcome := do
  let e ← s.engine? k
  let u ← (s.verified[v]?).join
  let (e', compiled) := e.compile k u
  -- The verified unit is used up whether or not it can be linked.
  let rest := { s.setEngine k (some e') with verified := s.verified.set v none }
  let notes := u.unit.linkNotes e.symbols
  match compiled with
  | .ok entry =>
    return ⟨{ rest with entries := s.entries ++ [some entry] }, notes,
      .ok (.entry s.entries.length entry (entry.isLive (some e')))⟩
  | .error err => return ⟨rest, notes, .error err⟩

def wrap (s : Session) (k arity : Nat) : Option Outcome := do
  let entry ← (s.entries[k]?).join
  -- The entry is used up whether or not it can be wrapped.
  let rest := { s with entries := s.entries.set k none }
  match Callable.ofEntry entry arity with
  | .ok c =>
    return ⟨{ rest with callables := s.callables ++ [some c] }, [],
      .ok (.callable s.callables.length c)⟩
  | .error err => return ⟨rest, [], .error err⟩

def compileExpr (s : Session) (k : Nat) (i : Nat) (vs : List Variable) (strategy : Strategy) :
    Option Outcome := do
  let e ← s.engine? k
  let (e', compiled) := e.compileExpr k s.graph i s.folded s.nextUnit vs strategy
  let rest := s.setEngine k (some e')
  match compiled.result with
  | .ok c =>
    return ⟨{ rest with callables := s.callables ++ [some c], nextUnit := s.nextUnit + 1 },
      compiled.notes, .ok (.callable s.callables.length c)⟩
  | .error err => return ⟨rest, compiled.notes, .error err⟩

def invoke (s : Session) (k : Nat) (args : List Double) : Option Outcome :=
  ((s.callables[k]?).join).map fun c =>
    let r := c.invoke (s.engine? c.entry.engine) args
    ⟨{ s with callables := s.callables.set k (some r.callable) }, r.calls.filterMap Note.ofCall,
      r.result.map .value⟩

def askCallable (s : Session) (k : Nat) (f : Callable → Except Error Answer) : Option Outcome :=
  ((s.callables[k]?).join).map fun c => ⟨s, [], f c⟩

def step (s : Session) : Command → Option Outcome
  | .outline node => s.askGraph node fun i =>
    let e := s.graph.expr i
    .outline e.text e.dump
  | .display node => s.askGraph node fun i => .display (s.graph.expr i).text
  | .dag node => s.askGraph node fun i => .dag (s.listNodes s.graph i)
  | .vars node => s.askGraph node fun i => .vars (s.graph.vars i)
  | .allVariables => some (s.answer (.allVariables s.vars))
  | .sameNode a b => do
    let i ← s.nodes[a]?
    let j ← s.nodes[b]?
    return s.answer (.sameNode (i = j))
  | .sameVariable a b => do
    let v ← s.vars[a]?
    let w ← s.vars[b]?
    return s.answer (.sameVariable (v.id = w.id) (compare v.id w.id))
  | .arithmetic op x y => some (s.answer (.arithmetic (op.apply x y) op.symbol))
  | .eval node params args => do
    let i ← s.node? node
    let vs ← s.params? params
    return s.evaluated (s.graph.evaluate i (.builtinsOnly s.platform) vs args)
  | .fold node => s.fold node
  | .newTable host =>
    some ⟨{ s with tables := s.tables ++ [.new s.platform host] }, [], .ok (.table s.tables.length)⟩
  | .register r i => s.register r i
  | .registerCollected r name => s.registerCollected r name
  | .registerAllCollected r => s.registerAllCollected r
  | .registerSeveral r names => s.registerSeveral r names
  | .clearRegistered r => (s.table? r).map fun t => ⟨s.setTable r t.clear, [], .ok .done⟩
  | .known r name => (s.table? r).map fun t => s.answer (.known (t.known? name))
  | .resolve r name arity => s.resolve r name arity
  | .newEngine c =>
    some ⟨{ s with engines := s.engines ++ [some (.new s.platform c)] }, [],
      .ok (.engine s.engines.length c)⟩
  | .dropEngine k => s.dropEngine k
  | .freeMemory k => s.freeMemory k
  | .signature arity => some (s.answer (.signature (.f64 arity)))
  | .evaluate k node params args => do
    let e ← s.engine? k
    let i ← s.node? node
    let vs ← s.params? params
    return s.evaluated (s.graph.evaluate i e.symbols vs args)
  | .lower k node params strategy => s.lower k node params strategy
  | .function k name => ((s.units[k]?).join).map fun u =>
    s.answer (.found (u.function? name).isSome)
  | .edit k change => ((s.units[k]?).join).map fun u =>
    ⟨{ s with units := s.units.set k (some (u.edit change)) }, [], .ok .done⟩
  | .verify k => s.verify k
  | .compile k v => s.compile k v
  | .wrap k arity => s.wrap k arity
  | .compileExpr k node params strategy => do
    let i ← s.node? node
    let vs ← s.params? params
    s.compileExpr k i vs strategy
  | .compileInferred k node strategy => do
    let i ← s.node? node
    s.compileExpr k i (s.graph.vars i) strategy
  | .tamper k change => ((s.entries[k]?).join).map fun e =>
    ⟨{ s with entries := s.entries.set k (some (e.tamper change)) }, [], .ok .done⟩
  | .tamperCallable k change => ((s.callables[k]?).join).map fun c =>
    ⟨{ s with callables := s.callables.set k (some (c.tamper change)) }, [], .ok .done⟩
  | .invoke k args => s.invoke k args
  | .isLive k => s.askCallable k fun c => .ok (.isLive (c.entry.isLive (s.engine? c.entry.engine)))
  | .address k name => s.askCallable k fun c =>
    (c.entry.locate (s.engine? c.entry.engine) name).map fun _ => .address
  | .dropCallable k => ((s.callables[k]?).join).map fun _ =>
    ⟨{ s with callables := s.callables.set k none }, [], .ok .done⟩
  | .buffer k => s.askCallable k fun c => .ok (.buffer c.entry.buffer)
  | .newBuffer size =>
    some ⟨{ s with buffers := s.buffers ++ [.new size] }, [],
      .ok (.newBuffer s.buffers.length (.new size))⟩
  | .writeBuffer k args => (s.buffers[k]?).map fun b =>
    ⟨{ s with buffers := s.buffers.set k (b.write args) }, [], .ok (.written (b.write args))⟩

def run (s : Session) : List Command → Session × List (Option Outcome)
  | [] => (s, [])
  | c :: cs =>
    let o := s.step c
    let s' := (o.map (·.session)).getD s
    let (final, rest) := s'.run cs
    (final, o :: rest)

end Session
end ExprCompiler
