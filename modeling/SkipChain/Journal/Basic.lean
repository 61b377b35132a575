import SkipChain.Journal.Error
import SkipChain.Morsel.Basic
import SkipChain.Path.Build
import SkipChain.Table.TableSalt
/-!
Journals: a ledger together with what it commits to. A journal retains the rows that it was given
in full, the attestations of its states, and the paths that it was last asked for.
-/
namespace SkipChain

structure PathRequest where
  targets : NatSet
  low : Nat
  high : Nat
  deriving DecidableEq

def PathRequest.build (r : PathRequest) (l : Ledger) : Except LedgerError Path :=
  l.path r.targets.toList r.low r.high

/-- A ledger with its metadata, its retained rows by number, and the attestations of its rows. -/
structure Journal where
  info : LedgerInfo
  ledger : Ledger
  tableSalt : Option TableSalt
  rows : NatMap Row
  attestations : List RowAttestation
  paths : Cache PathRequest Path

abbrev Witness := Digest → Except WitnessError Attestation

namespace Journal

/-- An operation that may change the journal even when it fails. -/
abbrev Action (α : Type) := EStateM Error Journal α

def new (info : LedgerInfo) (settings : Settings) : Except Error Journal := do
  settings.validate.mapError .settings
  info.validate.mapError .morsel
  let paths ← (Cache.new settings.cacheCapacity).mapError .cache
  return ⟨info, .new settings.algorithm, none, .empty, [], paths⟩

def name (j : Journal) : String := j.info.name

def algorithm (j : Journal) : Algorithm := j.ledger.algorithm

def size (j : Journal) : Nat := j.ledger.size

def state (j : Journal) : Digest := j.ledger.state

def withTableSalt (j : Journal) (salt : TableSalt) : Except Error Journal :=
  if salt.algorithm ≠ j.algorithm then
    .error (.algorithmMismatch j.name j.algorithm salt.algorithm)
  else .ok { j with tableSalt := some salt }

def appendInput (j : Journal) (input : Digest) : Journal :=
  { j with ledger := j.ledger.append input }

def appendRow (j : Journal) (row : Row) : Journal :=
  let j := j.appendInput (row.hash j.algorithm.digest)
  { j with rows := j.rows.insert j.size row }

def nextRow (j : Journal) (values : List Value) : Except ValueError Row :=
  match j.tableSalt with
  | some salt => salt.saltRow j.info.salt (j.size + 1) values
  | none => return ⟨← values.mapM fun v => Cell.make v none⟩

def appendValues (j : Journal) (values : List Value) : Except Error Journal := do
  return j.appendRow (← (j.nextRow values).mapError .value)

def path (r : PathRequest) : Action Path := fun j =>
  match j.paths.getOrCompute r fun _ => r.build j.ledger with
  | (.ok p, paths) => .ok p { j with paths }
  | (.error e, paths) => .error (.ledger e) { j with paths }

def inclusion (n : Nat) : Action Path := path ⟨.ofList [n], 0, n⟩

def consistency (m n : Nat) : Action Path := path ⟨.ofList [m, n], m, n⟩

def statePath : Action Path := do inclusion (← get).size

/-- The journal cut back to its first `n` rows. The rows and attestations after those are dropped,
and so are the remembered paths, some of which may be of dropped rows. -/
def trim (j : Journal) (n : Nat) : Except Error Journal := do
  let ledger ← (j.ledger.trim n).mapError .ledger
  return { j with
    ledger
    rows := j.rows.filterKeys (· ≤ n)
    attestations := j.attestations.filter (·.row ≤ n)
    paths := j.paths.clear }

/-- What to record when a witness that was shown `state`, the hash of `row`, answers. -/
def answered (row : Nat) (state : Digest) (answer : Except WitnessError Attestation) :
    Except Error RowAttestation :=
  match answer with
  | .error e => .error (.witness e)
  | .ok a => if a.state ≠ state then .error (.attestationMismatch row) else .ok ⟨row, a⟩

def record (j : Journal) (a : RowAttestation) : Journal :=
  { j with attestations := j.attestations ++ [a] }

def witness (j : Journal) (w : Witness) : Except Error (RowAttestation × Journal) := do
  if j.size = 0 then throw .nothingToWitness
  let a ← answered j.size j.state (w j.state)
  return (a, j.record a)

end Journal

end SkipChain
