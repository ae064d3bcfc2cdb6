import ExprCompiler.Number.Text

/-! The buffer through which a compiled function reads its arguments. -/
namespace ExprCompiler

structure ArgBuffer where
  values : List Double
deriving DecidableEq

namespace ArgBuffer

/-- Until the first write the slots hold 1, 2, 3, ... -/
def new (size : Nat) : ArgBuffer := ⟨(List.range size).map fun i => Double.ofNat (i + 1)⟩

def size (b : ArgBuffer) : Nat := b.values.length

/-- Fills the slots from the first one on; slots without an argument stay. -/
def write (b : ArgBuffer) (args : List Double) : ArgBuffer :=
  ⟨args.take b.size ++ b.values.drop args.length⟩

theorem size_write (b : ArgBuffer) (args : List Double) : (b.write args).size = b.size := by
  simp [write, size]
  omega

def text (b : ArgBuffer) : String :=
  "PinnedBuffer \x7b addr: ADDR, values: [" ++ ", ".intercalate (b.values.map fieldText) ++ "] \x7d"

end ArgBuffer
end ExprCompiler
