/-!
The ranges of numbers of fixed width, and sums, differences and shifts that are made only where they
stay in their word.
-/
namespace SkipChain.Word

abbrev count32 : Nat := 0x100000000

abbrev count64 : Nat := 0x10000000000000000

def isInt64 (n : Int) : Bool := -0x8000000000000000 ≤ n && n < 0x8000000000000000

theorem isInt64_iff {n : Int} : isInt64 n ↔ -0x8000000000000000 ≤ n ∧ n < 0x8000000000000000 := by
  simp [isInt64]

def int64? (n : Int) : Option Int := if isInt64 n then some n else none

theorem int64?_bind {α : Type} (n : Int) (f : Int → Option α) :
    (int64? n).bind f = if isInt64 n then f n else none := by
  unfold int64?
  split <;> rfl

/-- A number with a sign as one without: there is none if it is negative. -/
def unsigned? (n : Int) : Option Nat := if 0 ≤ n then some n.toNat else none

def add? (count a b : Nat) : Option Nat := if a + b < count then some (a + b) else none

def sub? (a b : Nat) : Option Nat := if b ≤ a then some (a - b) else none

def bit? (k : Nat) : Option Nat := if k < 64 then some (1 <<< k) else none

/-- A word of 64 bits, shifted to the left by fewer places than it has. The bits that this pushes
out of the word are lost. -/
def shiftLeft? (n k : Nat) : Option Nat := if k < 64 then some ((n <<< k) % count64) else none

def shiftRight? (n k : Nat) : Option Nat := if k < 64 then some (n >>> k) else none

end SkipChain.Word
