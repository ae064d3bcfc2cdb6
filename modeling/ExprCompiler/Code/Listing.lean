import ExprCompiler.Code.Unit

/-! The listing of a unit: imports, then every body as a function with numbered
values. A constant operand is repeated in a comment behind the instruction. -/
namespace ExprCompiler

def valueText (v : Nat) : String := s!"v{v}"

def valuesText (vs : List Nat) : String := ", ".intercalate (vs.map valueText)

def BinaryOp.mnemonic : BinaryOp → String
  | .add => "fadd"
  | .sub => "fsub"
  | .mul => "fmul"
  | .div => "fdiv"

def hexGroups (n : Nat) : (groups : Nat) → String
  | 0 => hexText 4 n
  | groups + 1 =>
    if n < 65536 then hexText 4 n else hexGroups (n / 65536) groups ++ "_" ++ hexText 4 (n % 65536)

/-- Nothing for zero, else a sign and the number, from 10000 on in hexadecimal. -/
def offsetText (offset : Int32) : String :=
  let n := offset.toInt
  if n = 0 then ""
  else
    (if n < 0 then "-" else "+") ++
      if n.natAbs < 10000 then toString n.natAbs else "0x" ++ hexGroups n.natAbs 4

namespace Instr

def text : Instr → String
  | .const c => "f64const " ++ immediateText c
  | .neg a => "fneg " ++ valueText a
  | .binary op a b => op.mnemonic ++ " " ++ valuesText [a, b]
  | .call reference args => s!"call fn{reference}(" ++ valuesText args ++ ")"
  | .bufferAddress => "iconst.i64 ADDR"
  | .load base offset => "load.f64 notrap aligned " ++ valueText base ++ offsetText offset

def immediate? : Instr → Option String
  | .const c => some (immediateText c)
  | .bufferAddress => some "ADDR"
  | _ => none

end Instr

namespace Block

def definition? (b : Block) (v : Nat) : Option Instr :=
  if v < b.params.length then none else b.instrs[v - b.params.length]?

def comment (b : Block) (operands : List Nat) : String :=
  let shown := operands.filterMap fun v =>
    ((b.definition? v).bind Instr.immediate?).map fun text => valueText v ++ " = " ++ text
  if shown.isEmpty then "" else "  ; " ++ ", ".intercalate shown

def lines (b : Block) : List String :=
  let params := b.params.zipIdx.map fun (ty, v) => valueText v ++ ": " ++ ty.text
  let header := if params.isEmpty then "block0:" else "block0(" ++ ", ".intercalate params ++ "):"
  let instrs := b.instrs.zipIdx.map fun (instr, k) =>
    "    " ++ valueText (b.params.length + k) ++ " = " ++ instr.text ++ b.comment instr.operands
  let last := b.returned.toList.map fun vs =>
    "    return" ++ (if vs.isEmpty then "" else " " ++ valuesText vs) ++ b.comment vs
  header :: (instrs ++ last)

end Block

def Target.text : Target → String
  | .declaration space index => s!"u{space}:{index}"
  | .library => "%library"

def Body.lines (b : Body) : List String :=
  let signatures := b.references.zipIdx.map fun (r, k) => s!"    sig{k} = " ++ r.signature.text
  let functions := b.references.zipIdx.map fun (r, k) =>
    s!"    fn{k} = " ++ r.target.text ++ s!" sig{k}"
  let gap := if b.references.isEmpty then [] else [""]
  let block := b.block.toList.flatMap Block.lines
  [s!"function u0:{b.index}" ++ b.signature.text ++ " \x7b"] ++ signatures ++ functions ++ gap ++
    block ++ ["\x7d"]

def pieces : List Char → List (List Char)
  | [] => [[]]
  | c :: cs =>
    match c, pieces cs with
    | '\n', rest => [] :: rest
    | c, first :: rest => (c :: first) :: rest
    | c, [] => [[c]]

/-- The lines that a line of the listing comes out as: a name can have line
breaks in it, and a carriage return before a line break belongs to the break. -/
def brokenLines (line : String) : List String :=
  (pieces line.toList).map fun cs =>
    String.ofList (if cs.getLast? = some '\r' then cs.dropLast else cs)

def CompilationUnit.lines (u : CompilationUnit) : List String :=
  let header := "; unit ID (" ++ u.strategy.text ++ ", " ++ toString u.arity ++ " params)"
  let imports := u.imports.map fun d => "; import " ++ d.name ++ " " ++ d.signature.text
  let bodies := u.bodies.flatMap fun (k, b) =>
    ("; " ++ (u.declarations[k]?.map (·.name)).getD "") :: b.lines
  (header :: (imports ++ bodies)).flatMap brokenLines

end ExprCompiler
