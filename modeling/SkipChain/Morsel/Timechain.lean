import SkipChain.Morsel.Error
import SkipChain.Word
/-!
Timechains: time is cut into blocks of `2 ^ binExponent` milliseconds from an inception on, and
block 1 starts at the inception.
-/
namespace SkipChain

structure Timechain where
  binExponent : UInt8
  inception : Int64
  deriving DecidableEq

namespace Timechain

/-- The greatest exponent with which blocks can be computed in 64 bits. -/
def maxBinExponent : UInt8 := 62

def isValid (t : Timechain) : Bool := t.binExponent ≤ maxBinExponent

def make (binExponent : UInt8) (inception : Int64) : Except MorselError Timechain :=
  let t : Timechain := ⟨binExponent, inception⟩
  if t.isValid then .ok t else .error .binExponent

def width (t : Timechain) : Nat := 1 <<< t.binExponent.toNat

/-- The block that an instant falls into. There is none before the inception, nor when the time
since the inception does not fit into 64 bits with a sign. -/
def blockAt? (t : Timechain) (instant : Int64) : Option Nat :=
  let elapsed := instant.toInt - t.inception.toInt
  if elapsed < 0 ∨ !Word.isInt64 elapsed then none else some (elapsed.toNat / t.width + 1)

/-- The first instant of a block and the first one after it, if both fit into 64 bits with a sign,
as must the time from the inception to the block. -/
def range? (t : Timechain) (block : Nat) : Option (Int × Int) :=
  if block = 0 then none
  else
    let index : Int := block - 1
    let elapsed := index * t.width
    let start := elapsed + t.inception.toInt
    let stop := start + t.width
    if [index, elapsed, start, stop].all Word.isInt64 then some (start, stop) else none

end Timechain

end SkipChain
