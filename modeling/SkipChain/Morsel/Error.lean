import SkipChain.Hash.Algorithm
import SkipChain.Ledger.Error
/-!
Why a morsel, or a part of one, is refused.
-/
namespace SkipChain

inductive Scope where
  | morsel
  /-- A ledger by its place, before its name is known. -/
  | place (index : Nat)
  | ledger (name : String)
  deriving DecidableEq, Repr

def Scope.text : Scope → String
  | morsel => "morsel"
  | place index => s!"ledger #{index}"
  | ledger name => s!"ledger {Text.quoted name}"

inductive RequiredSection where
  | ledgers
  | identity
  | salt
  deriving DecidableEq, Repr

def RequiredSection.text : RequiredSection → String
  | ledgers => "LEDGERS"
  | identity => "IDENT"
  | salt => "SALT"

inductive ParsingFault where
  | emptyRowDelimiter
  | emptyCommentMark
  | emptyTokenDelimiters
  | optionalFlag
  deriving DecidableEq, Repr

def ParsingFault.message : ParsingFault → String
  | emptyRowDelimiter => "empty row delimiter"
  | emptyCommentMark => "empty comment prefix"
  | emptyTokenDelimiters => "empty token delimiter set"
  | optionalFlag => "invalid optional string flag"

inductive MetadataFault where
  | timechainMissing
  | timechainWithParsing
  | binExponent
  | strayTimechain
  | rawTextWithoutParsing
  deriving DecidableEq, Repr

def MetadataFault.message : MetadataFault → String
  | timechainMissing => "timechain ledger without timechain parameters"
  | timechainWithParsing => "timechain ledger cannot carry row parsing"
  | binExponent => "timechain bin exponent too large"
  | strayTimechain => "timechain parameters on a non-timechain ledger"
  | rawTextWithoutParsing => "raw text without row parsing settings"

inductive MorselError where
  | magic (found : String)
  | version (number : Nat)
  | reservedByte (byte : UInt8)
  | tooShort (length : Nat)
  | checksum (stored computed : UInt32)
  | algorithm (cause : AlgorithmError)
  | wire (cause : ValueError)
  | path (fault : PathFault)
  | emptyLedgerList
  | emptyName
  | duplicateName (name : String)
  | assetsWithoutNotes (scope : Scope)
  | missingSection (required : RequiredSection) (scope : Scope)
  | sectionOrder (tag : UInt8) (scope : Scope)
  | trailingBytes (tag : UInt8) (extra : Nat)
  | tooManyLedgers (count limit : Nat)
  | ledgerCount (listed found : Nat)
  | ledgerMismatch (index : Nat) (expected actual : String)
  | ledgerKind (code : UInt8)
  | metadata (name : String) (fault : MetadataFault)
  | parsing (fault : ParsingFault)
  | binExponent
  | parsingFlags (flags : UInt8)
  | unsortedEntries (row : Nat)
  | duplicateSourceRow (name : String) (row : Nat)
  deriving DecidableEq, Repr

namespace MorselError

def byteText (b : UInt8) : String := "0x" ++ Text.hexPadded 2 b.toNat

def wordText (w : UInt32) : String := "0x" ++ Text.hexPadded 8 w.toNat

def message : MorselError → String
  | magic found => s!"invalid morsel magic: expected SKLM, got {found}"
  | version number => s!"unsupported morsel version: {number}"
  | reservedByte b => s!"reserved header byte must be zero, got {byteText b}"
  | tooShort length => s!"morsel too short: {length} bytes"
  | checksum stored computed =>
    s!"morsel checksum mismatch: stored {wordText stored}, computed {wordText computed}"
  | algorithm cause => cause.message
  | wire cause => cause.message
  | path fault => LedgerError.message (.malformedPath fault)
  | emptyLedgerList => "morsel lists no ledgers"
  | emptyName => "ledger alias must not be empty"
  | duplicateName name => s!"duplicate ledger alias: {Text.quoted name}"
  | assetsWithoutNotes scope => s!"{scope.text}: assets present without notes"
  | missingSection required scope => s!"{scope.text}: missing required {required.text} section"
  | sectionOrder tag scope => s!"{scope.text}: section {byteText tag} out of order or repeated"
  | trailingBytes tag extra => s!"section {byteText tag} has {extra} unread trailing bytes"
  | tooManyLedgers count limit => s!"{count} ledgers exceeds the limit of {limit}"
  | ledgerCount listed found =>
    s!"ledger list names {listed} ledgers but {found} ledger sections follow"
  | ledgerMismatch index expected actual =>
    s!"ledger section {index} is {Text.quoted actual}, expected {Text.quoted expected}"
  | ledgerKind code => s!"unknown ledger kind code: {code.toNat}"
  | metadata name fault => s!"ledger {Text.quoted name}: {fault.message}"
  | parsing fault => s!"invalid row parsing settings: {fault.message}"
  | binExponent => "invalid timechain parameters: bin exponent too large"
  | parsingFlags flags => s!"unknown row parsing flags: {byteText flags}"
  | unsortedEntries row =>
    s!"path entries must be in strictly ascending row order (row {row})"
  | duplicateSourceRow name row =>
    s!"ledger {Text.quoted name}: source row {row} disclosed twice"

def kind (_ : MorselError) : ErrorKind := .malformedInput

end MorselError

end SkipChain
