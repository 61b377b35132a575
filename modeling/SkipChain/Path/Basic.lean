import SkipChain.Ascending.Map
import SkipChain.Ascending.Set
import SkipChain.Digest
import SkipChain.Ledger.Error
/-!
Paths: proofs that some rows of a ledger belong below a high row. A path records the hashes of some
rows; for the expanded ones it records the input hash too, so that their hash can be recomputed.
-/
namespace SkipChain

/-- What a path records of a row: its hash, and its input hash if the row is expanded. A row that
is not expanded is an anchor. -/
structure PathEntry where
  hash : Digest
  input : Option Digest
  deriving DecidableEq

def PathEntry.isExpanded (e : PathEntry) : Bool := e.input.isSome

/-- The parts of a path: the rows it spans, the rows it is to prove, and its entries. -/
structure PathParts where
  low : Nat
  high : Nat
  targets : NatSet
  entries : NatMap PathEntry
  deriving DecidableEq

/-- The first rule that parts break: the range is not empty, targets lie in it, entries lie between
1 and `high`, and an entry of `high` is expanded unless the range is a single row. -/
def PathParts.fault? (p : PathParts) : Option PathFault :=
  if p.high = 0 ∨ p.high < p.low then some .emptyRange
  else if p.targets.toList.any fun t => t < p.low || p.high < t || t == 0 then some .targetOutside
  else if p.entries.keys.any fun r => r == 0 || p.high < r then some .entryOutside
  else if ((p.entries.get? p.high).any fun e => !e.isExpanded) && p.low != p.high then
    some .highNotExpanded
  else none

/-- Parts that break no rule. Whether the hashes are right is not said. -/
structure Path extends PathParts where
  faultless : toPathParts.fault? = none
  deriving DecidableEq

namespace Path

def ofParts (parts : PathParts) : Except PathFault Path :=
  match h : parts.fault? with
  | some fault => .error fault
  | none => .ok ⟨parts, h⟩

def entry? (p : Path) (row : Nat) : Option PathEntry := p.entries.get? row

def contains (p : Path) (row : Nat) : Bool := p.entries.contains row

def isExpanded (p : Path) (row : Nat) : Bool := (p.entry? row).any PathEntry.isExpanded

def hash? (p : Path) (row : Nat) : Option Digest := (p.entry? row).map PathEntry.hash

def input? (p : Path) (row : Nat) : Option Digest := (p.entry? row).bind PathEntry.input

/-- The recorded hash of the high row, which the path proves against; the sentinel if there is
none. -/
def highHash (p : Path) : Digest := (p.hash? p.high).getD .sentinel

def size (p : Path) : Nat := p.entries.size

end Path

end SkipChain
