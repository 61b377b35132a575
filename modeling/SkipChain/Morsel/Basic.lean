import SkipChain.Morsel.Info
import SkipChain.Path.Basic
/-!
Morsels: what is disclosed and proven of some ledgers, bundled under one hash algorithm.
-/
namespace SkipChain

/-- A trusted time for the state of a ledger. The proof is for the service that gave it; here it is
only carried. -/
structure Attestation where
  state : Digest
  millis : Int64
  proof : Bytes
  deriving DecidableEq

structure RowAttestation where
  row : Nat
  attestation : Attestation
  deriving DecidableEq

structure SourceRow where
  row : Nat
  cells : Row
  deriving DecidableEq

structure RawText where
  first : Nat
  bytes : Bytes
  deriving DecidableEq

structure Package where
  info : LedgerInfo
  paths : List Path
  sourceRows : List SourceRow
  rawText : Option RawText
  attestations : List RowAttestation
  deriving DecidableEq

namespace Package

def new (info : LedgerInfo) : Package := ⟨info, [], [], none, []⟩

def name (p : Package) : String := p.info.name

def sourceRow? (p : Package) (row : Nat) : Option Row :=
  (p.sourceRows.find? (·.row = row)).map SourceRow.cells

def repeated? : (before : List Nat) → List Nat → Option Nat
  | _, [] => none
  | before, n :: ns => if n ∈ before then some n else repeated? (n :: before) ns

/-- Refuse wrong metadata, a row disclosed twice, and text that nothing says how to split. -/
def validate (p : Package) : Except MorselError Unit := do
  p.info.validate
  match repeated? [] (p.sourceRows.map SourceRow.row) with
  | some row => throw (.duplicateSourceRow p.name row)
  | none =>
    if p.rawText.isSome && p.info.parsing.isNone then
      throw (.metadata p.name .rawTextWithoutParsing)

end Package

/-- Packages of some ledgers with different names, in order. -/
structure Morsel where
  algorithm : Algorithm
  notes : Option String
  assets : Option Bytes
  ledgers : List Package
  deriving DecidableEq

namespace Morsel

def new (algorithm : Algorithm) : Morsel := ⟨algorithm, none, none, []⟩

def names (m : Morsel) : List String := m.ledgers.map Package.name

def ledger? (m : Morsel) (name : String) : Option Package := m.ledgers.find? (·.name = name)

def add (m : Morsel) (p : Package) : Except MorselError Morsel := do
  p.validate
  if (m.ledger? p.name).isSome then throw (.duplicateName p.name)
  return { m with ledgers := m.ledgers ++ [p] }

def validateLedgers : (before : List String) → List Package → Except MorselError Unit
  | _, [] => .ok ()
  | before, p :: ps => do
    p.validate
    if p.name ∈ before then throw (.duplicateName p.name)
    validateLedgers (p.name :: before) ps

/-- The rules for every morsel that is written or read: it has ledgers, assets come with notes, and
the packages are valid and of different ledgers. -/
def validate (m : Morsel) : Except MorselError Unit := do
  if m.ledgers.isEmpty then throw .emptyLedgerList
  if m.assets.isSome && m.notes.isNone then throw (.assetsWithoutNotes .morsel)
  validateLedgers [] m.ledgers

end Morsel

end SkipChain
