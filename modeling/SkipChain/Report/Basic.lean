import SkipChain.Json.Printer
import SkipChain.Morsel.Basic
import SkipChain.Path.Verify
/-!
What checking a morsel finds: for every ledger, how much of what is claimed is proven, and
everything that is not.
-/
namespace SkipChain

inductive Finding where
  /-- A path is not right in itself, or does not have the trusted hash. -/
  | path (flaw : PathFlaw)
  /-- A path records another hash for a row than the authenticated one. -/
  | inconsistent
  /-- No path contains the trusted row. -/
  | untrusted
  /-- A path shares no row with what is authenticated, so nothing in it is proven. -/
  | disconnected
  /-- A row is shown or spelled whose input hash is not authenticated. -/
  | unprovenRow
  /-- A row is attested whose hash is not authenticated. -/
  | unprovenAttestation
  /-- A row shown does not have the authenticated input hash. -/
  | sourceRow
  /-- A row spelled does not have the authenticated input hash. -/
  | textRow
  /-- The raw text does not spell rows. -/
  | rawText (cause : MorselError)
  /-- What is attested is not the authenticated hash of the row. -/
  | attestation
  deriving DecidableEq, Repr

namespace Finding

def kindName : Finding → String
  | path _ => "path"
  | inconsistent => "inconsistent"
  | untrusted => "untrusted"
  | disconnected => "disconnected"
  | unprovenRow | unprovenAttestation => "unproven"
  | sourceRow => "source_row"
  | textRow | rawText _ => "raw_text"
  | attestation => "attestation"

def detail : Finding → String
  | path flaw => flaw.message
  | inconsistent => "path disagrees with the authenticated row hash"
  | untrusted => "no path contains the trusted row"
  | disconnected => "path shares no row with the authenticated state"
  | unprovenRow => "row is not expanded in an authenticated path"
  | unprovenAttestation => "attested row is not authenticated by a path"
  | sourceRow | textRow => "row does not hash to its proven input hash"
  | rawText cause => cause.message
  | attestation => "attested state differs from the row hash"

end Finding

structure Failure where
  row : Nat
  finding : Finding
  deriving DecidableEq, Repr

structure LedgerReport where
  name : String
  kind : LedgerKind
  pathsVerified : Nat
  sourceRowsVerified : Nat
  textRowsVerified : Nat
  attestationsVerified : Nat
  failures : List Failure
  deriving DecidableEq

def LedgerReport.isValid (r : LedgerReport) : Bool := r.failures.isEmpty

structure Report where
  algorithm : Algorithm
  ledgers : List LedgerReport
  deriving DecidableEq

namespace Report

def isValid (r : Report) : Bool := r.ledgers.all LedgerReport.isValid

def ledger? (r : Report) (name : String) : Option LedgerReport :=
  r.ledgers.find? (·.name = name)

end Report

def Failure.toJson (f : Failure) : Json :=
  .object [("row", .integer f.row), ("kind", .string f.finding.kindName),
    ("detail", .string f.finding.detail)]

def LedgerReport.toJson (r : LedgerReport) : Json :=
  .object [("alias", .string r.name), ("kind", .string r.kind.name),
    ("paths_verified", .integer r.pathsVerified),
    ("source_rows_verified", .integer r.sourceRowsVerified),
    ("raw_rows_verified", .integer r.textRowsVerified),
    ("attestations_verified", .integer r.attestationsVerified),
    ("failures", .array (r.failures.map Failure.toJson))]

def Report.toJson (r : Report) : Json :=
  .object [("algorithm", .string r.algorithm.name),
    ("ledgers", .array (r.ledgers.map LedgerReport.toJson))]

def Report.toText (r : Report) : String := r.toJson.pretty

end SkipChain
