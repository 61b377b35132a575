import SkipChain.Journal.Basic
/-!
Disclosing a part of a journal: what is shown goes into a package together with the paths that
prove it, and the package into a morsel.
-/
namespace SkipChain

inductive PathChoice where
  | inclusion (row : Nat)
  | consistency (low high : Nat)
  | state
  | custom (targets : List Nat) (low high : Nat)
  deriving DecidableEq, Repr

def PathChoice.path : PathChoice → Journal.Action Path
  | inclusion row => Journal.inclusion row
  | consistency low high => Journal.consistency low high
  | state => Journal.statePath
  | custom targets low high => Journal.path ⟨.ofList targets, low, high⟩

structure Disclosure where
  paths : List PathChoice
  rows : List Nat
  /-- The columns that are replaced by their hashes in every row shown. -/
  redacted : List Nat
  attestations : Bool
  rawText : Option RawText

namespace Disclosure

def sourceRows (d : Disclosure) (j : Journal) : Except Error (List SourceRow) :=
  (NatSet.ofList d.rows).toList.mapM fun n =>
    match j.rows.get? n with
    | some row => .ok ⟨n, row.redact j.algorithm.digest d.redacted⟩
    | none => .error (.rowNotRetained n)

def textRows (d : Disclosure) (j : Journal) : Except Error (List Nat) :=
  match d.rawText, j.info.parsing with
  | none, _ => .ok []
  | some _, none => .error (.textWithoutParsing j.name)
  | some text, some parsing =>
    match parsing.rows text.bytes text.first with
    | some (.ok rows) => .ok (rows.map (·.1))
    | some (.error e) => .error (.morsel e)
    | none => .error .overflow

/-- The package of what is disclosed. One more path from the start of the ledger to its last row
proves all rows that are shown, attested or spelled, if there are any. -/
def package (d : Disclosure) : Journal.Action Package := do
  let paths ← d.paths.mapM PathChoice.path
  let j ← get
  let sourceRows ← ofExcept (d.sourceRows j)
  let attestations := if d.attestations then j.attestations else []
  let textRows ← ofExcept (d.textRows j)
  let proven := sourceRows.map SourceRow.row ++ attestations.map RowAttestation.row ++ textRows
  let covering ← if proven.isEmpty then pure []
    else List.singleton <$> Journal.path ⟨.ofList proven, 0, j.size⟩
  return ⟨j.info, paths ++ covering, sourceRows, d.rawText, attestations⟩

end Disclosure

def Morsel.disclose (m : Morsel) (d : Disclosure) : Journal.Action Morsel := do
  let j ← get
  if j.algorithm ≠ m.algorithm then
    throw (.algorithmMismatch j.name m.algorithm j.algorithm)
  let p ← d.package
  ofExcept ((m.add p).mapError .morsel)

def Morsel.gather (m : Morsel) (d : Disclosure) (j : Journal) : Except Error Unit × Morsel :=
  match m.disclose d j with
  | .ok m' _ => (.ok (), m')
  | .error e _ => (.error e, m)

end SkipChain
