import SkipChain.Journal.Error
import SkipChain.Morsel.Decode
import SkipChain.Report.Authentication
import SkipChain.Report.Basic
/-!
Checking every claim that a morsel makes. What fails is collected, and checking goes on. There is no
report if the numbers of the rows that a text spells leave the word.
-/
namespace SkipChain

structure TrustedRow where
  row : Nat
  hash : Digest
  deriving DecidableEq

/-- The trusted rows, of at most one row of a ledger. -/
structure Verifier where
  trusted : List (String × TrustedRow)

namespace Verifier

def new : Verifier := ⟨[]⟩

def trust (v : Verifier) (name : String) (t : TrustedRow) : Verifier :=
  ⟨(name, t) :: v.trusted.filter (·.1 ≠ name)⟩

def trusted? (v : Verifier) (name : String) : Option TrustedRow := v.trusted.lookup name

end Verifier

namespace Package

/-- Check a path against the trusted row if it contains that, else against its own high row. -/
def checkPath (H : Hash) (trusted : Option TrustedRow) (p : Path) : Except PathFlaw Unit :=
  match trusted with
  | some t => if p.contains t.row then p.verify H t.hash t.row else p.verifySelf H
  | none => p.verifySelf H

def pathFailure? (H : Hash) (trusted : Option TrustedRow) (p : Path) : Option Failure :=
  match checkPath H trusted p with
  | .ok () => none
  | .error flaw => some ⟨flaw.row, .path flaw⟩

def verifiedPaths (H : Hash) (trusted : Option TrustedRow) (k : Package) : List Path :=
  k.paths.filter fun p => (pathFailure? H trusted p).isNone

def untrustedFailure? (trusted : Option TrustedRow) (k : Package) : Option Failure :=
  match trusted with
  | some t => if k.paths.any (·.contains t.row) then none else some ⟨t.row, .untrusted⟩
  | none => none

/-- The path with the highest high row; of several the first. -/
def highest : List Path → Option Path
  | [] => none
  | p :: ps =>
    match highest ps with
    | none => some p
    | some q => if p.high < q.high then some q else some p

/-- The row that authentication starts from: the trusted one, else the high row of the highest
verified path. -/
def root? (trusted : Option TrustedRow) (paths : List Path) : Option (Nat × Digest) :=
  match trusted with
  | some t => some (t.row, t.hash)
  | none => (highest paths).map fun p => (p.high, p.highHash)

/-- The entries of a verified path that disagree with what is authenticated; and that none agrees,
if none does. -/
def linkFailures (a : Authenticated) (p : Path) : List Failure :=
  let disagrees (e : Nat × PathEntry) : Bool := (a.hashes.get? e.1).any (· ≠ e.2.hash)
  let agrees (e : Nat × PathEntry) : Bool := a.hashes.get? e.1 = some e.2.hash
  (p.entries.toList.filter disagrees).map (fun e => ⟨e.1, .inconsistent⟩)
    ++ if p.entries.toList.any agrees then [] else [⟨p.high, .disconnected⟩]

/-- What is wrong with a row, where `finding` says that its hash is not the authenticated one. -/
def rowFailure? (H : Hash) (a : Authenticated) (finding : Finding) (n : Nat) (row : Row) :
    Option Failure :=
  match a.inputs.get? n with
  | none => some ⟨n, .unprovenRow⟩
  | some input => if input = row.hash H then none else some ⟨n, finding⟩

def sourceRowChecks (H : Hash) (a : Authenticated) (k : Package) : List (Option Failure) :=
  k.sourceRows.map fun r => rowFailure? H a .sourceRow r.row r.cells

/-- What is wrong with each row that the raw text spells, or with the text. The text of a salted
ledger is not checked: it does not tell the salts. -/
def textRowChecks (H : Hash) (a : Authenticated) (k : Package) : Option (List (Option Failure)) :=
  match k.rawText, k.info.parsing with
  | some text, some parsing =>
    if k.info.salt = .noneSalted then do
      match ← parsing.rows text.bytes text.first with
      | .ok rows => return rows.map fun r => rowFailure? H a .textRow r.1 r.2
      | .error e => return [some ⟨text.first, .rawText e⟩]
    else return []
  | _, _ => return []

def attestationFailure? (a : Authenticated) (t : RowAttestation) : Option Failure :=
  match a.hashes.get? t.row with
  | none => some ⟨t.row, .unprovenAttestation⟩
  | some hash => if hash = t.attestation.state then none else some ⟨t.row, .attestation⟩

def passed (checks : List (Option Failure)) : Nat := checks.countP Option.isNone

def authenticated (H : Hash) (trusted : Option TrustedRow) (k : Package) : Authenticated :=
  let verified := k.verifiedPaths H trusted
  .ofPaths (root? trusted verified) verified

def report (H : Hash) (trusted : Option TrustedRow) (k : Package) (a : Authenticated)
    (textRows : List (Option Failure)) : LedgerReport :=
  let paths := k.paths.map (pathFailure? H trusted)
  let sourceRows := k.sourceRowChecks H a
  let attestations := k.attestations.map (attestationFailure? a)
  { name := k.name
    kind := k.info.kind
    pathsVerified := passed paths
    sourceRowsVerified := passed sourceRows
    textRowsVerified := passed textRows
    attestationsVerified := passed attestations
    failures := paths.reduceOption ++ (k.untrustedFailure? trusted).toList
      ++ (k.verifiedPaths H trusted).flatMap (linkFailures a) ++ sourceRows.reduceOption
      ++ textRows.reduceOption ++ attestations.reduceOption }

def verify (H : Hash) (trusted : Option TrustedRow) (k : Package) : Option LedgerReport :=
  let a := k.authenticated H trusted
  (k.textRowChecks H a).map (k.report H trusted a)

end Package

namespace Verifier

def verify (v : Verifier) (m : Morsel) : Option Report :=
  let ledgers := m.ledgers.mapM fun k => k.verify m.algorithm.digest (v.trusted? k.name)
  ledgers.map (.mk m.algorithm)

def verifyBytes (v : Verifier) (limits : Limits) (data : Bytes) : Except Error Report := do
  let m ← (Morsel.decode limits data).mapError .morsel
  (v.verify m).getDM (throw .overflow)

end Verifier

end SkipChain
