import SkipChain.Ledger.Link
import SkipChain.Path.Basic
import SkipChain.Skip
/-!
Checking paths with nothing but their entries: every expanded row's hash is recomputed, the row
asked for has the hash asked for, and every row hangs below the high row.
-/
namespace SkipChain

inductive PathFlaw where
  | missingReference (row reference : Nat)
  /-- The recomputed hash differs. A change to one of the rows that it was recomputed from looks
  like a change to the row itself. -/
  | hashMismatch (row : Nat) (references : List Nat)
  | missingRow (row : Nat)
  | unexpectedHash (row : Nat)
  | unreferenced (row : Nat)
  deriving DecidableEq, Repr

namespace PathFlaw

def listText (rows : List Nat) : String := "[" ++ ", ".intercalate (rows.map toString) ++ "]"

def message : PathFlaw → String
  | missingReference row reference =>
    s!"row {row} references row {reference}, which the path does not contain"
  | hashMismatch row references =>
    s!"recomputed hash of row {row} does not match (references {listText references})"
  | missingRow row => s!"expected row {row} is not in the path"
  | unexpectedHash row => s!"row {row} does not have the expected hash"
  | unreferenced row => s!"row {row} is not referenced by any expanded row"

def kind (_ : PathFlaw) : ErrorKind := .verificationFailure

def row : PathFlaw → Nat
  | missingReference row _ => row
  | hashMismatch row _ => row
  | missingRow row => row
  | unexpectedHash row => row
  | unreferenced row => row

/-- The rows that may carry the damage: the row itself, and the rows that its hash was recomputed
from. -/
def suspects : PathFlaw → List Nat
  | hashMismatch row references => row :: references.filter (· ≠ 0)
  | flaw => [flaw.row]

end PathFlaw

namespace Path

def referenceHash (p : Path) (row : Nat) : Digest :=
  if row = 0 then .sentinel else (p.hash? row).getD .sentinel

/-- What is wrong with the links of an entry. An anchor has none that could be checked. -/
def entryFlaw? (H : Hash) (p : Path) (row : Nat) (entry : PathEntry) : Option PathFlaw :=
  match entry.input with
  | none => none
  | some input =>
    let references := Skip.references row
    match references.find? fun r => r ≠ 0 && !p.contains r with
    | some missing => some (.missingReference row missing)
    | none =>
      if H.link input (references.map p.referenceHash) = entry.hash then none
      else some (.hashMismatch row references)

def linkFlaw? (H : Hash) (p : Path) : Option PathFlaw :=
  p.entries.toList.findSome? fun (row, entry) => p.entryFlaw? H row entry

def required (p : Path) : List Nat := (p.targets.toList ++ [p.high, p.low]).filter (· ≠ 0)

def referenced (p : Path) : List Nat :=
  (p.entries.toList.filter fun e => e.2.isExpanded).flatMap fun e => Skip.references e.1

/-- The first row that is required and missing, or that nothing above links to. Links go down, so
without such a row every row hangs below the high row. -/
def rootFlaw? (p : Path) : Option PathFlaw :=
  match p.required.find? fun r => !p.contains r with
  | some r => some (.missingRow r)
  | none =>
    let referenced := p.referenced
    (p.entries.keys.find? fun r => r ≠ p.high && !referenced.contains r).map .unreferenced

def verifyClosure (H : Hash) (p : Path) : Except PathFlaw Unit :=
  match p.linkFlaw? H with
  | some flaw => .error flaw
  | none => match p.rootFlaw? with
    | some flaw => .error flaw
    | none => .ok ()

def verify (H : Hash) (p : Path) (hash : Digest) (row : Nat) : Except PathFlaw Unit :=
  match p.linkFlaw? H with
  | some flaw => .error flaw
  | none => match p.hash? row with
    | none => .error (.missingRow row)
    | some found =>
      if found ≠ hash then .error (.unexpectedHash row)
      else match p.rootFlaw? with
        | some flaw => .error flaw
        | none => .ok ()

def verifySelf (H : Hash) (p : Path) : Except PathFlaw Unit := p.verify H p.highHash p.high

end Path

end SkipChain
