/-!
The coarse classes of failure that callers branch on.
-/
namespace SkipChain

inductive ErrorKind where
  /-- Input refused when it is read or put together. -/
  | malformedInput
  /-- A bound or a capability of a ledger is exceeded. -/
  | capacityMismatch
  /-- A recomputed hash differs, or a proof is not closed. -/
  | verificationFailure
  /-- An outside service failed. -/
  | dependency
  /-- A local fault, such as unusable settings. -/
  | internal
  deriving DecidableEq, Repr

/-- Only the failure of an outside service may clear on a second try. -/
def ErrorKind.retryable (kind : ErrorKind) : Bool := kind == .dependency

end SkipChain
