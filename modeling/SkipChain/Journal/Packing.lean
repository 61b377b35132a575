import SkipChain.Journal.Disclosure
/-!
Disclosing step by step. The package of a journal is put together piece by piece, and then goes into
the morsel. A step that fails leaves what the steps before it have done.
-/
namespace SkipChain

namespace Package

def withPath (k : Package) (p : Path) : Package := { k with paths := k.paths ++ [p] }

def withSourceRow (k : Package) (r : SourceRow) : Package :=
  { k with sourceRows := k.sourceRows ++ [r] }

end Package

structure Packing where
  morsel : Morsel
  journal : Journal
  package : Package

namespace Packing

abbrev Step (α : Type) := EStateM Error Packing α

def start (m : Morsel) (j : Journal) : Packing := ⟨m, j, .new j.info⟩

def ask {α : Type} (action : Journal.Action α) : Step α := fun s =>
  match action s.journal with
  | .ok a journal => .ok a { s with journal }
  | .error e journal => .error e { s with journal }

def fill (f : Package → Package) : Step Unit := modify fun s => { s with package := f s.package }

def addPath (choice : PathChoice) : Step Unit := do
  let p ← ask choice.path
  fill (·.withPath p)

def addRow (redacted : List Nat) (n : Nat) : Step Unit := do
  let j := (← get).journal
  match j.rows.get? n with
  | some row => fill (·.withSourceRow ⟨n, row.redact j.algorithm.digest redacted⟩)
  | none => throw (.rowNotRetained n)

def addAttestations (wanted : Bool) : Step Unit := do
  let s ← get
  if wanted then fill fun k => { k with attestations := s.journal.attestations }

def addText : Option RawText → Step (List Nat)
  | none => return []
  | some text => do
    let j := (← get).journal
    match j.info.parsing with
    | none => throw (.textWithoutParsing j.name)
    | some parsing =>
      match parsing.rows text.bytes text.first with
      | some (.ok rows) =>
        fill fun k => { k with rawText := some text }
        return rows.map (·.1)
      | some (.error e) => throw (.morsel e)
      | none => throw .overflow

def addCovering (textRows : List Nat) : Step Unit := do
  let s ← get
  let shown := s.package.sourceRows.map SourceRow.row
  let attested := s.package.attestations.map RowAttestation.row
  let proven := shown ++ attested ++ textRows
  if ¬proven.isEmpty then addPath (.custom proven 0 s.journal.size)

def assemble (d : Disclosure) : Step Unit := do
  d.paths.forM addPath
  (NatSet.ofList d.rows).toList.forM (addRow d.redacted)
  addAttestations d.attestations
  let textRows ← addText d.rawText
  addCovering textRows

def close : Step Unit := do
  let s ← get
  ofExcept (s.package.validate.mapError .morsel)
  if (s.morsel.ledger? s.package.name).isSome then
    throw (.morsel (.duplicateName s.package.name))
  modify fun s => { s with morsel := { s.morsel with ledgers := s.morsel.ledgers ++ [s.package] } }

def perform (d : Disclosure) : Step Unit := do
  let s ← get
  if s.journal.algorithm ≠ s.morsel.algorithm then
    throw (.algorithmMismatch s.journal.name s.morsel.algorithm s.journal.algorithm)
  fill fun _ => .new s.journal.info
  assemble d
  close

inductive Call where
  | notes (text : String)
  | assets (bytes : Bytes)
  | add (journal : Journal) (request : Disclosure)

def Call.leave (m : Morsel) : Call → Morsel
  | notes text => { m with notes := some text }
  | assets bytes => { m with assets := some bytes }
  | add journal request =>
    match perform request (.start m journal) with
    | .ok _ s => s.morsel
    | .error _ s => s.morsel

end Packing

namespace Morsel

def after (m : Morsel) (calls : List Packing.Call) : Morsel := calls.foldl Packing.Call.leave m

def finish (m : Morsel) : Except Error Morsel := do
  m.validate.mapError .morsel
  return m

end Morsel

end SkipChain
