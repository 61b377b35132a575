import SkipChain.Skip
import SkipChain.Word
/-!
The way down in words, round by round. In each round the level of the link to take is counted down
from the highest one, until the link does not pass below the low row. Where a word is left there is
no result.
-/
namespace SkipChain.Checked

def linkAt (row level : Nat) : Option Nat := do Word.sub? row (← Word.bit? level)

/-- Count a level down to the first one at which `row` does not link below `low`. There is no level
below 0 to count on to. -/
def levelDown (row low : Nat) : (level : Nat) → Option Nat
  | 0 => do if (← linkAt row 0) < low then none else return 0
  | level + 1 => do
    if (← linkAt row (level + 1)) < low then levelDown row low level else return level + 1

/-- The rows visited, one in each round. There is no result if the rounds do not suffice. -/
def descentWithin : (rounds high low : Nat) → Option (List Nat)
  | 0, high, low => if high ≤ low then return [] else none
  | rounds + 1, high, low =>
    if high ≤ low then return []
    else do
      let next ← linkAt high (← levelDown high low (Skip.level high))
      return high :: (← descentWithin rounds next low)

end SkipChain.Checked
