import SkipChain.Morsel.Timechain
/-!
Blocks of time in words. Where a step is taken with a check and its number is no word, there is no
block or no range. The other casts, shifts and sums are made only where they stay in their word;
where one does not, there is no result at all.
-/
namespace SkipChain.Checked

def blockAt (t : Timechain) (instant : Int64) : Option (Option Nat) :=
  match Word.int64? (instant.toInt - t.inception.toInt) with
  | none => return none
  | some elapsed =>
    if elapsed < 0 then return none
    else do
      let index ← Word.shiftRight? (← Word.unsigned? elapsed) t.binExponent.toNat
      return some (← Word.add? Word.count64 index 1)

/-- The range of a block. Its width is a single bit, in a word with a sign. -/
def blockRange (t : Timechain) (block : Nat) : Option (Option (Int × Int)) :=
  match (Word.sub? block 1).bind fun index => Word.int64? index with
  | none => return none
  | some index => do
    let width ← Word.int64? (← Word.bit? t.binExponent.toNat)
    return do
      let elapsed ← Word.int64? (index * width)
      let start ← Word.int64? (elapsed + t.inception.toInt)
      return (start, ← Word.int64? (start + width))

end SkipChain.Checked
