import SkipChain.Hash.Crc32
import SkipChain.Morsel.Section
/-!
Writing morsels: a header of eight bytes, sections in the order of their tags, and a checksum of
all that stands before it.
-/
namespace SkipChain

def Morsel.magic : Bytes := [0x53, 0x4B, 0x4C, 0x4D]

def Morsel.formatVersion : Nat := 1

def Morsel.headerLength : Nat := 8

def Morsel.trailerLength : Nat := 4

def Package.sections (p : Package) : List LedgerSection :=
  .identity p.info.kind p.info.name
    :: (p.info.origin.map .origin).toList
    ++ (p.info.notes.map .notes).toList
    ++ (p.info.assets.map .assets).toList
    ++ .salt p.info.salt
    :: (p.info.timechain.map .timechain).toList
    ++ (p.info.parsing.map .parsing).toList
    ++ p.paths.map .path
    ++ p.sourceRows.map .sourceRow
    ++ (p.rawText.map .rawText).toList
    ++ p.attestations.map .attestation

def Package.encode (p : Package) : Bytes := p.sections.flatMap fun s => s.toSection.encode

namespace Morsel

def encodeList (m : Morsel) : Bytes :=
  Wire.varint m.ledgers.length ++ m.names.flatMap Wire.text

def sections (m : Morsel) : List Section :=
  ⟨MorselTag.ledgers.code, m.encodeList⟩
    :: (m.notes.map fun s => ⟨MorselTag.notes.code, Utf8.encode s⟩).toList
    ++ (m.assets.map fun b => ⟨MorselTag.assets.code, b⟩).toList
    ++ m.ledgers.map fun p => ⟨MorselTag.ledger.code, p.encode⟩

def header (m : Morsel) : Bytes :=
  magic ++ Bytes.bigEndian 2 formatVersion ++ [m.algorithm.code, 0]

def withChecksum (content : Bytes) : Bytes :=
  content ++ Bytes.bigEndian 4 (Crc32.checksum content).toNat

def encode (m : Morsel) : Except MorselError Bytes := do
  m.validate
  return withChecksum (m.header ++ m.sections.flatMap Section.encode)

end Morsel

end SkipChain
