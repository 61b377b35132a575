import SkipChain.Cache
import SkipChain.Morsel.Error
import SkipChain.Settings
/-!
Why an operation on a journal, or on what comes from one, fails.
-/
namespace SkipChain

inductive WitnessError where
  | unavailable (reason : String)
  deriving DecidableEq, Repr

namespace WitnessError

def message : WitnessError → String
  | unavailable reason => s!"timestamping service unavailable: {reason}"

/-- A witness that is away now may answer later. -/
def kind (_ : WitnessError) : ErrorKind := .dependency

end WitnessError

inductive Error where
  | value (cause : ValueError)
  | ledger (cause : LedgerError)
  | morsel (cause : MorselError)
  | cache (cause : CacheError)
  | witness (cause : WitnessError)
  | settings (cause : SettingsError)
  | attestationMismatch (row : Nat)
  | rowNotRetained (row : Nat)
  | algorithmMismatch (name : String) (expected actual : Algorithm)
  | nothingToWitness
  | textWithoutParsing (name : String)
  /-- No answer: the program stops at a sum that leaves its word. -/
  | overflow
  deriving DecidableEq, Repr

namespace Error

def message : Error → String
  | value cause => s!"type error: {cause.message}"
  | ledger cause => s!"ledger error: {cause.message}"
  | morsel cause => s!"morsel error: {cause.message}"
  | cache cause => s!"cache error: {cause.message}"
  | witness cause => s!"witness error: {cause.message}"
  | settings cause => cause.message
  | attestationMismatch row => s!"witness attested a different state for row {row}"
  | rowNotRetained row => s!"row {row} is not retained by this handle"
  | algorithmMismatch name expected actual =>
    s!"ledger {Text.quoted name} uses {actual.name}, expected {expected.name}"
  | nothingToWitness => "invalid operation: cannot witness an empty ledger"
  | textWithoutParsing name =>
    s!"invalid operation: ledger {Text.quoted name} has no row parsing settings for raw text"
  | overflow => "attempt to add with overflow"

def kind : Error → ErrorKind
  | value cause => cause.kind
  | ledger cause => cause.kind
  | morsel cause => cause.kind
  | cache _ | settings _ | overflow => .internal
  | witness cause => cause.kind
  | attestationMismatch _ => .verificationFailure
  | rowNotRetained _ => .capacityMismatch
  | algorithmMismatch .. | nothingToWitness | textWithoutParsing _ => .malformedInput

end Error

end SkipChain
