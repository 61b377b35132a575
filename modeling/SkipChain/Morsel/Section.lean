import SkipChain.Morsel.Basic
import SkipChain.Morsel.Limits
/-!
The sections that a morsel is encoded in. A section is a tag and a body after its length. The part
of a morsel for one ledger is itself a row of sections, and what each of those holds is a value of
`LedgerSection`, with its encoding beside its reading.
-/
namespace SkipChain

instance : MonadLift (EStateM ValueError Cursor) (EStateM MorselError Cursor) :=
  ⟨fun read => Decoder.mapError .wire read⟩

structure Section where
  tag : UInt8
  body : Bytes
  deriving DecidableEq

namespace Section

def encode (s : Section) : Bytes := Wire.tagged s.tag s.body

def decode (limit : Nat) : Decoder ValueError Section := do
  let tag ← Decoder.byte
  let length ← Decoder.count limit
  return ⟨tag, ← Decoder.take length⟩

/-- Read sections, at most `fuel`, to the end of the data or up to the first that is malformed; and
what is wrong with that one. -/
def readAll (limit : Nat) : (fuel : Nat) → Cursor → List Section × Option ValueError
  | 0, _ => ([], none)
  | fuel + 1, c =>
    if c.rest.isEmpty then ([], none)
    else match decode limit c with
      | .error e _ => ([], some e)
      | .ok s c =>
        let (sections, fault) := readAll limit fuel c
        (s :: sections, fault)

def split (limit : Nat) (bytes : Bytes) : List Section × Option ValueError :=
  readAll limit bytes.length (.start bytes)

end Section

inductive LedgerTag where
  | identity
  | origin
  | notes
  | assets
  | salt
  | timechain
  | parsing
  | path
  | sourceRow
  | rawText
  | attestation
  deriving DecidableEq, Repr

namespace LedgerTag

def all : List LedgerTag :=
  [identity, origin, notes, assets, salt, timechain, parsing, path, sourceRow, rawText, attestation]

def code : LedgerTag → UInt8
  | identity => 0x01
  | origin => 0x02
  | notes => 0x03
  | assets => 0x04
  | salt => 0x05
  | timechain => 0x06
  | parsing => 0x07
  | path => 0x08
  | sourceRow => 0x09
  | rawText => 0x0A
  | attestation => 0x0B

def ofCode? (code : UInt8) : Option LedgerTag := all.find? fun t => t.code == code

def repeatable : LedgerTag → Bool
  | path | sourceRow | attestation => true
  | _ => false

end LedgerTag

inductive LedgerSection where
  | identity (kind : LedgerKind) (name : String)
  | origin (text : String)
  | notes (text : String)
  | assets (bytes : Bytes)
  | salt (scheme : SaltScheme)
  | timechain (parameters : Timechain)
  | parsing (settings : RowParsing)
  | path (path : Path)
  | sourceRow (row : SourceRow)
  | rawText (text : RawText)
  | attestation (attestation : RowAttestation)

namespace RowParsing

def flags (p : RowParsing) : UInt8 :=
  (if p.trimTokens then 1 else 0) ||| (if p.skipBlank then 2 else 0)

def encode (p : RowParsing) : Bytes :=
  Wire.text p.rowDelimiter ++ Wire.optionalText p.commentMark
    ++ Wire.optionalText p.tokenDelimiters ++ [p.flags]

def decodeOptional : Decoder MorselError (Option String) := do
  let flag ← Decoder.byte
  if flag = 0 then return none
  else if flag = 1 then return some (← Decoder.text)
  else throw (.parsing .optionalFlag)

/-- Read settings. Only the two lowest flags have a meaning; the others must be clear. -/
def decode : Decoder MorselError RowParsing := do
  let rowDelimiter ← Decoder.text
  let commentMark ← decodeOptional
  let tokenDelimiters ← decodeOptional
  let flags ← Decoder.byte
  if 3 < flags then throw (.parsingFlags flags)
  return ⟨rowDelimiter, commentMark, tokenDelimiters, flags &&& 1 ≠ 0, flags &&& 2 ≠ 0⟩

end RowParsing

namespace Path

def encodeEntry (row : Nat) (e : PathEntry) : Bytes :=
  Wire.varint row ++ e.input.elim [0] (fun input => 1 :: input.bytes) ++ e.hash.bytes

def encode (p : Path) : Bytes :=
  Wire.varint p.low ++ Wire.varint p.high
    ++ Wire.varint p.targets.size ++ p.targets.toList.flatMap Wire.varint
    ++ Wire.varint p.entries.size ++ p.entries.toList.flatMap fun e => encodeEntry e.1 e.2

/-- Read `n` more targets into a set. They may come in any order, but none of them twice. -/
def decodeTargets : (n : Nat) → NatSet → Decoder MorselError NatSet
  | 0, targets => return targets
  | n + 1, targets => do
    let row ← Decoder.varint
    if row ∈ targets then throw (.path .duplicateTarget)
    decodeTargets n (targets.insert row)

def decodeEntry : Decoder MorselError PathEntry := do
  let flag ← Decoder.byte
  let input ← if flag = 0 then pure none
    else if flag = 1 then some <$> (Decoder.digest : Decoder ValueError Digest)
    else throw (.path .unknownEntryFlag)
  return ⟨← Decoder.digest, input⟩

/-- Read `n` more entries into a map. Their rows ascend. -/
def decodeEntries : (n : Nat) → (last : Option Nat) → NatMap PathEntry →
    Decoder MorselError (NatMap PathEntry)
  | 0, _, entries => return entries
  | n + 1, last, entries => do
    let row ← Decoder.varint
    if last.any (row ≤ ·) then throw (.unsortedEntries row)
    let entry ← decodeEntry
    decodeEntries n (some row) (entries.insert row entry)

/-- Read a path with at most `limit` targets and at most `limit` entries. -/
def decode (limit : Nat) : Decoder MorselError Path := do
  let low ← Decoder.varint
  let high ← Decoder.varint
  let targets ← decodeTargets (← Decoder.count limit) .empty
  let entries ← decodeEntries (← Decoder.count limit) none .empty
  match ofParts ⟨low, high, targets, entries⟩ with
  | .error fault => throw (.path fault)
  | .ok path => return path

end Path

namespace LedgerSection

def tag : LedgerSection → LedgerTag
  | identity .. => .identity
  | origin _ => .origin
  | notes _ => .notes
  | assets _ => .assets
  | salt _ => .salt
  | timechain _ => .timechain
  | parsing _ => .parsing
  | path _ => .path
  | sourceRow _ => .sourceRow
  | rawText _ => .rawText
  | attestation _ => .attestation

def body : LedgerSection → Bytes
  | identity kind name => kind.code :: Wire.text name
  | origin text => Utf8.encode text
  | notes text => Utf8.encode text
  | assets bytes => bytes
  | salt scheme => scheme.encode
  | timechain t => t.binExponent :: Value.int64Bytes t.inception
  | parsing p => p.encode
  | path p => p.encode
  | sourceRow r => Wire.varint r.row ++ r.cells.encode
  | rawText t => Wire.varint t.first ++ t.bytes
  | attestation a =>
    Wire.varint a.row ++ a.attestation.state.bytes ++ Value.int64Bytes a.attestation.millis
      ++ a.attestation.proof

def toSection (s : LedgerSection) : Section := ⟨s.tag.code, s.body⟩

def decodeRestText : Decoder MorselError String := fun c =>
  match Utf8.decode c.rest with
  | .error valid => .error (.wire (.utf8 (c.offset + valid))) c
  | .ok s => .ok s ⟨c.offset + c.rest.length, []⟩

def decodeIdentity : Decoder MorselError (LedgerKind × String) := do
  match LedgerKind.ofCode (← Decoder.byte) with
  | .error e => throw e
  | .ok kind => return (kind, ← Decoder.text)

def decode (limits : Limits) : LedgerTag → Decoder MorselError LedgerSection
  | .identity => do
    let (kind, name) ← decodeIdentity
    return identity kind name
  | .origin => return origin (← decodeRestText)
  | .notes => return notes (← decodeRestText)
  | .assets => return assets (← Decoder.takeRest)
  | .salt => return salt (← SaltScheme.decode)
  | .timechain => do
    let binExponent ← Decoder.byte
    return timechain ⟨binExponent, ← Decoder.int64⟩
  | .parsing => return parsing (← RowParsing.decode)
  | .path => return path (← Path.decode limits.maxPathEntries)
  | .sourceRow => do
    let row ← Decoder.varint
    return sourceRow ⟨row, ← Row.decode limits.maxCellsPerRow⟩
  | .rawText => do
    let first ← Decoder.varint
    return rawText ⟨first, ← Decoder.takeRest⟩
  | .attestation => do
    let row ← Decoder.varint
    let state ← Decoder.digest
    let millis ← Decoder.int64
    return attestation ⟨row, state, millis, ← Decoder.takeRest⟩

/-- The contents of a section with a known tag. The body must be used up. -/
def ofBody (limits : Limits) (tag : LedgerTag) (body : Bytes) :
    Except MorselError LedgerSection :=
  match decode limits tag (.start body) with
  | .error e _ => .error e
  | .ok s c => if c.rest.isEmpty then .ok s else .error (.trailingBytes tag.code c.rest.length)

end LedgerSection

inductive MorselTag where
  | ledgers
  | notes
  | assets
  | ledger
  deriving DecidableEq, Repr

namespace MorselTag

def all : List MorselTag := [ledgers, notes, assets, ledger]

def code : MorselTag → UInt8
  | ledgers => 0x01
  | notes => 0x02
  | assets => 0x03
  | ledger => 0x10

def ofCode? (code : UInt8) : Option MorselTag := all.find? fun t => t.code == code

def repeatable : MorselTag → Bool
  | ledger => true
  | _ => false

end MorselTag

def outOfOrder (last tag : UInt8) (repeatable : Bool) : Bool :=
  tag < last || (tag == last && !repeatable)

end SkipChain
