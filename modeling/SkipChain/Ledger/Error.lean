import SkipChain.ErrorKind
/-!
Why a ledger refuses a request, or a path is refused when it is put together.
-/
namespace SkipChain

inductive PathFault where
  | emptyRange
  | targetOutside
  | entryOutside
  | highNotExpanded
  | duplicateTarget
  | unknownEntryFlag
  deriving DecidableEq, Repr

def PathFault.message : PathFault → String
  | emptyRange => "range must satisfy lo <= hi, hi >= 1"
  | targetOutside => "target outside path range"
  | entryOutside => "entry outside [1, hi]"
  | highNotExpanded => "hi entry must be expanded"
  | duplicateTarget => "duplicate target"
  | unknownEntryFlag => "unknown path entry flag"

inductive LedgerError where
  | rowOutOfBounds (row size : Nat)
  | trimUnsupported
  | trimBeyondSize (requested size : Nat)
  | invalidRange (low high size : Nat)
  | targetOutOfRange (row low high : Nat)
  | malformedPath (fault : PathFault)
  deriving DecidableEq, Repr

namespace LedgerError

def message : LedgerError → String
  | rowOutOfBounds row size => s!"row {row} is beyond ledger size {size}"
  | trimUnsupported => "this ledger does not support trimming"
  | trimBeyondSize requested size => s!"cannot trim to {requested}: ledger size is {size}"
  | invalidRange low high size => s!"invalid path range: lo={low}, hi={high}, size={size}"
  | targetOutOfRange row low high => s!"target row {row} outside [{low}, {high}]"
  | malformedPath fault => s!"malformed path: {fault.message}"

/-- A malformed path is a fault of the input; all else exceeds what the ledger can do. -/
def kind : LedgerError → ErrorKind
  | malformedPath _ => .malformedInput
  | _ => .capacityMismatch

end LedgerError

end SkipChain
