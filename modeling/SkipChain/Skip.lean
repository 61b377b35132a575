/-!
Which rows a row links to. Row `n` links to `n - 1`, `n - 2`, `n - 4` and so on, up to the largest
power of two that divides `n`, so the farthest link is never below row 0.
-/
namespace SkipChain.Skip

/-- How often `n` can be halved without a remainder, at most `fuel` times. -/
def halvings : (fuel n : Nat) → Nat
  | 0, _ => 0
  | fuel + 1, n => if n % 2 = 1 then 0 else halvings fuel (n / 2) + 1

/-- The number of trailing zero bits of `row`; 0 for row 0. -/
def level (row : Nat) : Nat := if row = 0 then 0 else halvings row row

def referenceCount (row : Nat) : Nat := if row = 0 then 0 else level row + 1

/-- The rows that `row` links to, nearest first. -/
def references (row : Nat) : List Nat :=
  (List.range (referenceCount row)).map fun k => row - (1 <<< k)

theorem lt_of_mem_references {row r : Nat} (h : r ∈ references row) : r < row := by
  obtain ⟨k, hk, rfl⟩ := List.mem_map.1 h
  have hrow : row ≠ 0 := by
    rintro rfl
    simp [referenceCount] at hk
  have hpos : 0 < 1 <<< k := by
    rw [Nat.one_shiftLeft]
    exact Nat.two_pow_pos k
  omega

/-- The farthest row that `row` links to without passing below `low`. -/
def hop (row low : Nat) : Nat := ((references row).reverse.find? (low ≤ ·)).getD (row - 1)

def descentWithin : (fuel row low : Nat) → List Nat
  | 0, _, _ => []
  | fuel + 1, row, low => if row ≤ low then [] else row :: descentWithin fuel (hop row low) low

/-- The rows visited on the way from `high` down to `low` by the farthest hops: `high` comes first,
`low` is left out, and there are none when `high ≤ low`. -/
def descent (high low : Nat) : List Nat := descentWithin high high low

end SkipChain.Skip
