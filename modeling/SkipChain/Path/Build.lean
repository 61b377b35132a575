import SkipChain.Ledger.Basic
import SkipChain.Path.Basic
/-!
Building paths from a ledger. The rows to expand are the ones visited on the way from the high row
down through all targets; every row they link to and that is not expanded becomes an anchor.
-/
namespace SkipChain.Ledger

/-- The rows that a path stops at on its way down: its ends and its targets. Row 1 is the lowest. -/
def stops (targets : NatSet) (low high : Nat) : NatSet :=
  (targets.insert high).insert (max low 1)

/-- The rows visited on the way through the stops, each of which is reached from the next one above;
row 1 too when the path reaches down to the start. -/
def expandedRows (targets : NatSet) (low high : Nat) : NatSet :=
  let stops := (stops targets low high).toList
  let visited := (stops.zip stops.tail).flatMap fun (lower, upper) => Skip.descent upper lower
  let rows := NatSet.ofList visited
  if low = 0 then rows.insert 1 else rows

def addExpanded (l : Ledger) (entries : NatMap PathEntry) (row : Nat) :
    Except LedgerError (NatMap PathEntry) := do
  let input ← l.inputHash row
  return entries.insert row ⟨← l.rowHash row, some input⟩

/-- Record a row without its input hash, unless it is recorded. Row 0 never is. -/
def addAnchor (l : Ledger) (entries : NatMap PathEntry) (row : Nat) :
    Except LedgerError (NatMap PathEntry) := do
  if row = 0 ∨ entries.contains row then return entries
  else return entries.insert row ⟨← l.rowHash row, none⟩

def pathEntries (l : Ledger) (expanded : NatSet) (low : Nat) :
    Except LedgerError (NatMap PathEntry) := do
  let entries ← expanded.toList.foldlM l.addExpanded .empty
  let entries ← (expanded.toList.flatMap Skip.references).foldlM l.addAnchor entries
  l.addAnchor entries low

/-- The path that proves `targets` against row `high`. With `low = 0` it reaches down to row 1; else
`low` is its lowest stop, and no row up to `low` is expanded. Target 0 is ignored. -/
def path (l : Ledger) (targets : List Nat) (low high : Nat) : Except LedgerError Path := do
  if high = 0 ∨ high < low ∨ l.size < high then throw (.invalidRange low high l.size)
  let targets := targets.filter (· ≠ 0)
  match targets.find? fun t => t < low || high < t with
  | some t => throw (.targetOutOfRange t low high)
  | none =>
    let targets := NatSet.ofList targets
    let entries ← l.pathEntries (expandedRows targets low high) low
    (Path.ofParts ⟨low, high, targets, entries⟩).mapError .malformedPath

def inclusion (l : Ledger) (n : Nat) : Except LedgerError Path := l.path [n] 0 n

def consistency (l : Ledger) (m n : Nat) : Except LedgerError Path := l.path [m, n] m n

def statePath (l : Ledger) : Except LedgerError Path := l.inclusion l.size

end SkipChain.Ledger
