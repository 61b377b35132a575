import SkipChain.Morsel.Encode
/-!
Reading morsels. Sections come in ascending order of their tags, only some of them more than once,
and sections with other tags are passed over. Hashes are not looked at.
-/
namespace SkipChain

/-- The contents of the sections after the first of a ledger's part; the last section that counted
had the tag `last`. Here a second identity has no meaning and is passed over. -/
def LedgerSection.ofSections (limits : Limits) (scope : Scope) :
    (last : LedgerTag) → List Section → Except MorselError (List LedgerSection)
  | _, [] => .ok []
  | last, s :: rest =>
    match LedgerTag.ofCode? s.tag with
    | none | some .identity => ofSections limits scope last rest
    | some tag => do
      if outOfOrder last.code tag.code tag.repeatable then throw (.sectionOrder tag.code scope)
      let contents ← ofBody limits tag s.body
      return contents :: (← ofSections limits scope tag rest)

namespace Package

def addSection (p : Package) : LedgerSection → Package
  | .identity kind name => { p with info := { p.info with kind, name } }
  | .origin s => { p with info := { p.info with origin := some s } }
  | .notes s => { p with info := { p.info with notes := some s } }
  | .assets b => { p with info := { p.info with assets := some b } }
  | .salt scheme => { p with info := { p.info with salt := scheme } }
  | .timechain t => { p with info := { p.info with timechain := some t } }
  | .parsing s => { p with info := { p.info with parsing := some s } }
  | .path x => { p with paths := p.paths ++ [x] }
  | .sourceRow r => { p with sourceRows := p.sourceRows ++ [r] }
  | .rawText t => { p with rawText := some t }
  | .attestation a => { p with attestations := p.attestations ++ [a] }

/-- Read the part for the ledger at a place: its identity first, and the salt scheme somewhere. A
malformed section is found after the ones before it have been read. -/
def decode (limits : Limits) (index : Nat) (bytes : Bytes) : Except MorselError Package := do
  match Section.split limits.maxSectionBytes bytes with
  | ([], some fault) => throw (.wire fault)
  | ([], none) => throw (.missingSection .identity (.place index))
  | (first :: rest, fault) =>
    if first.tag ≠ LedgerTag.identity.code then
      throw (.missingSection .identity (.place index))
    let identity ← LedgerSection.ofBody limits .identity first.body
    let contents ← LedgerSection.ofSections limits (.place index) .identity rest
    if let some e := fault then throw (.wire e)
    let package := contents.foldl addSection ((new (.new .table "")).addSection identity)
    if contents.any (·.tag = .salt) then return package
    else throw (.missingSection .salt (.ledger package.name))

end Package

inductive MorselSection where
  | notes (text : String)
  | assets (bytes : Bytes)
  | ledger (package : Package)

namespace MorselSection

def package? : MorselSection → Option Package
  | ledger p => some p
  | _ => none

def notes? : MorselSection → Option String
  | notes s => some s
  | _ => none

def assets? : MorselSection → Option Bytes
  | assets b => some b
  | _ => none

def decodeLedger (limits : Limits) (names : List String) (index : Nat) (body : Bytes) :
    Except MorselError Package := do
  match names[index]? with
  | none => throw (.ledgerCount names.length (index + 1))
  | some expected =>
    let p ← Package.decode limits index body
    if p.name ≠ expected then throw (.ledgerMismatch index expected p.name)
    return p

/-- The contents of the sections after the list of ledgers. The last section that counted had the
tag `last`, and `index` packages have been read. -/
def ofSections (limits : Limits) (names : List String) :
    (last : MorselTag) → (index : Nat) → List Section → Except MorselError (List MorselSection)
  | _, _, [] => .ok []
  | last, index, s :: rest =>
    match MorselTag.ofCode? s.tag with
    | none => ofSections limits names last index rest
    | some tag => do
      if outOfOrder last.code tag.code tag.repeatable then throw (.sectionOrder tag.code .morsel)
      match tag with
      | .ledgers => ofSections limits names tag index rest
      | .notes =>
        let text ← LedgerSection.decodeRestText.eval s.body
        return notes text :: (← ofSections limits names tag index rest)
      | .assets => return assets s.body :: (← ofSections limits names tag index rest)
      | .ledger =>
        let p ← decodeLedger limits names index s.body
        return ledger p :: (← ofSections limits names tag (index + 1) rest)

end MorselSection

namespace Morsel

/-- Read `n` more names, none of them empty and none of them twice. -/
def decodeNames : (n : Nat) → (before : List String) → Decoder MorselError (List String)
  | 0, _ => return []
  | n + 1, before => do
    let name ← Decoder.text
    if name = "" then throw .emptyName
    if name ∈ before then throw (.duplicateName name)
    return name :: (← decodeNames n (name :: before))

def decodeList (limits : Limits) : Decoder MorselError (List String) := do
  let n ← Decoder.varint
  if n = 0 then throw .emptyLedgerList
  if limits.maxLedgers < n then throw (.tooManyLedgers n limits.maxLedgers)
  let names ← decodeNames n []
  let extra ← Decoder.remaining
  if 0 < extra then throw (.trailingBytes MorselTag.ledgers.code extra)
  return names

/-- Read the sections of a morsel: the list of ledgers first, and as many packages as it names. A
malformed section is found after the ones before it have been read. -/
def decodeSections (limits : Limits) (algorithm : Algorithm) (bytes : Bytes) :
    Except MorselError Morsel := do
  match Section.split limits.maxSectionBytes bytes with
  | ([], some fault) => throw (.wire fault)
  | ([], none) => throw (.missingSection .ledgers .morsel)
  | (first :: rest, fault) =>
    if first.tag ≠ MorselTag.ledgers.code then throw (.missingSection .ledgers .morsel)
    let names ← (decodeList limits).eval first.body
    let contents ← MorselSection.ofSections limits names .ledgers 0 rest
    if let some e := fault then throw (.wire e)
    let packages := contents.filterMap MorselSection.package?
    if names.length ≠ packages.length then
      throw (.ledgerCount names.length packages.length)
    let m : Morsel := ⟨algorithm, contents.findSome? MorselSection.notes?,
      contents.findSome? MorselSection.assets?, packages⟩
    m.validate
    return m

def decodeHeader (bytes : Bytes) : Except MorselError Algorithm := do
  let found := bytes.take 4
  if found ≠ magic then throw (.magic (Utf8.decodeLossy found))
  let version := Bytes.toNat ((bytes.drop 4).take 2)
  if version ≠ formatVersion then throw (.version version)
  let algorithm ← (Algorithm.ofCode (bytes.getD 6 0)).mapError .algorithm
  let reserved := bytes.getD 7 0
  if reserved ≠ 0 then throw (.reservedByte reserved)
  return algorithm

def decode (limits : Limits) (data : Bytes) : Except MorselError Morsel := do
  if data.length < headerLength + trailerLength then throw (.tooShort data.length)
  let algorithm ← decodeHeader (data.take headerLength)
  let content := data.take (data.length - trailerLength)
  let stored := UInt32.ofNat (Bytes.toNat (data.drop (data.length - trailerLength)))
  let computed := Crc32.checksum content
  if stored ≠ computed then throw (.checksum stored computed)
  decodeSections limits algorithm (content.drop headerLength)

end Morsel

end SkipChain
