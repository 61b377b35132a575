import SkipChain.Bytes.Hex
import SkipChain.ErrorKind
import SkipChain.Text.Quoted
/-!
Why a value is refused when it is put together from text, bytes or encoded data.
-/
namespace SkipChain

inductive VarintFault where
  | truncated
  | overflow
  deriving DecidableEq, Repr

def VarintFault.message : VarintFault → String
  | truncated => "truncated varint"
  | overflow => "varint overflow"

/-- Why a value is refused. Offsets count bytes from the start of the data being read. -/
inductive ValueError where
  | hex (cause : HexError)
  | length (expected actual : Nat)
  | columnCode (code : UInt8)
  | columnSymbol (symbol : String)
  | nanDouble
  | saltLength (expected actual : Nat)
  | saltedHash
  | cellFlags (flags : UInt8)
  | saltMode (mode : UInt8)
  | duplicateSaltColumn (offset column : Nat)
  | truncated (offset needed available : Nat)
  | varint (offset : Nat) (fault : VarintFault)
  | lengthLimit (offset length limit : Nat)
  | utf8 (offset : Nat)
  deriving DecidableEq, Repr

namespace ValueError

def message : ValueError → String
  | hex cause => s!"invalid hex string: {cause.message}"
  | length expected actual => s!"invalid byte length: expected {expected}, got {actual}"
  | columnCode code => s!"unknown column type code: {code.toNat}"
  | columnSymbol symbol => s!"unknown column type symbol: {Text.quoted symbol}"
  | nanDouble => "NaN is not a valid DOUBLE cell value"
  | saltLength expected actual => s!"salt must be {expected} bytes, got {actual}"
  | saltedHash => "HASH cells cannot be salted"
  | cellFlags flags => s!"unknown cell flags: 0x{Text.hexPadded 2 flags.toNat}"
  | saltMode mode => s!"unknown salt scheme mode: {mode.toNat}"
  | duplicateSaltColumn offset column =>
    s!"unsalted column {column} listed twice at offset {offset}"
  | truncated offset needed available =>
    s!"truncated data at offset {offset}: needed {needed} bytes, {available} available"
  | varint offset fault => s!"invalid varint at offset {offset}: {fault.message}"
  | lengthLimit offset n limit => s!"length {n} at offset {offset} exceeds limit {limit}"
  | utf8 offset => s!"invalid UTF-8 string at offset {offset}"

def kind (_ : ValueError) : ErrorKind := .malformedInput

end ValueError

end SkipChain
