/-!
Bounds on what is read from a morsel that somebody else has written.
-/
namespace SkipChain

structure Limits where
  maxLedgers : Nat
  maxSectionBytes : Nat
  /-- The targets of a path, and its entries. -/
  maxPathEntries : Nat
  maxCellsPerRow : Nat
  deriving DecidableEq, Repr

def Limits.default : Limits := ⟨64, 16777216, 65536, 4096⟩

instance : Inhabited Limits := ⟨.default⟩

end SkipChain
