import SkipChain.Ledger.Store
/-!
Operations on a ledger of any kind, and runs of them. One that fails leaves the ledger as it is.
-/
namespace SkipChain

inductive LedgerOperation where
  | append (input : Digest)
  | appendAll (inputs : List Digest)
  | trim (size : Nat)
  deriving DecidableEq

namespace LedgerOperation

inductive Answer where
  | row (n : Nat)
  | size (n : Nat)
  | trimmed
  deriving DecidableEq

def isTrim : LedgerOperation → Bool
  | trim _ => true
  | _ => false

def perform {L : Type} [LedgerStore L] (l : L) :
    LedgerOperation → Except LedgerError Answer × L
  | append input =>
    let r := LedgerStore.append l input
    (.ok (.row r.2), r.1)
  | appendAll inputs =>
    let r := LedgerStore.appendAll l inputs
    (.ok (.size r.2), r.1)
  | trim n =>
    match LedgerStore.trim l n with
    | .ok l => (.ok .trimmed, l)
    | .error e => (.error e, l)

end LedgerOperation

namespace LedgerStore

variable {L : Type} [LedgerStore L]

def after (l : L) (ops : List LedgerOperation) : L := ops.foldl (fun l op => (op.perform l).2) l

def transcript : (l : L) → List LedgerOperation →
    List (LedgerOperation × Except LedgerError LedgerOperation.Answer)
  | _, [] => []
  | l, op :: ops => (op, (op.perform l).1) :: transcript (op.perform l).2 ops

end LedgerStore

end SkipChain
