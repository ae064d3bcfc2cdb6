import ExprCompiler.Symbol.Table

/-! Registration of collected functions by name. -/
namespace ExprCompiler.SymbolTable

def registerRecord (t : SymbolTable) (r : Platform.Record) : SymbolTable × Traced Unit :=
  let (t', result) := t.register r.intrinsic
  (t', ⟨[.registering r.intrinsic.name r.intrinsic.arity r.home], result⟩)

def registerCollected (t : SymbolTable) (name : String) : SymbolTable × Traced Unit :=
  match t.platform.collected? name with
  | some r => t.registerRecord r
  | none => (t, ⟨[], .error (.unresolvedSymbol name none)⟩)

/-- Registers several collected functions. The first failure ends it and keeps
what was added. -/
def registerSeveral (t : SymbolTable) : List String → SymbolTable × Traced Unit
  | [] => (t, ⟨[], .ok ()⟩)
  | name :: rest =>
    match t.registerCollected name with
    | (t', ⟨notes, .error e⟩) => (t', ⟨notes, .error e⟩)
    | (t', ⟨notes, .ok _⟩) =>
      let (final, later) := t'.registerSeveral rest
      (final, ⟨notes ++ later.notes, later.result⟩)

def registerAllCollected (t : SymbolTable) : SymbolTable × Except Error Nat :=
  t.registerAll (t.platform.collected.map (·.intrinsic))

end ExprCompiler.SymbolTable
