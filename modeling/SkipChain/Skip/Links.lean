import SkipChain.Skip.Levels
/-!
The links of a row in words, handed out one by one. Where a word is left there is no result.
-/
namespace SkipChain.Checked

def referenceCount (row : Nat) : Option Nat :=
  if row = 0 then some 0 else Word.add? Word.count64 (Skip.level row) 1

/-- The links of a row of which those below `level` have been handed out. -/
structure Links where
  row : Nat
  level : Nat
  levels : Nat
  deriving DecidableEq

namespace Links

/-- All links of a row. Their number is cut to 32 bits. -/
def start (row : Nat) : Option Links := do
  return ⟨row, 0, (← referenceCount row) % Word.count32⟩

def next (l : Links) : Option (Option Nat × Links) :=
  if l.levels ≤ l.level then return (none, l)
  else do
    let link ← linkAt l.row l.level
    let level ← Word.add? Word.count32 l.level 1
    return (some link, { l with level })

def sizeHint (l : Links) : Option (Nat × Option Nat) := do
  let left ← Word.sub? l.levels l.level
  return (left, some left)

/-- Ask for a link `n` times. The answers come with what is left after them. -/
def ask : (n : Nat) → Links → Option (List (Option Nat) × Links)
  | 0, l => return ([], l)
  | n + 1, l => do
    let (link, l) ← l.next
    let (links, l) ← ask n l
    return (link :: links, l)

end Links

end SkipChain.Checked
