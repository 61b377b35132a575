import SkipChain.Report.Verify
import SkipChain.Skip.Links
/-!
Checking a morsel in words. A sum, a difference or a shift is made only where it stays in its word;
where one does not, there is no result.
-/
namespace SkipChain.Checked

/-- The row that `row`, which links to `levels` rows, links to at a level. After it the level is
counted up and what is left is told, both with 32 bits. -/
def reference (row levels level : Nat) : Option Nat := do
  let reference ← Word.sub? row (← Word.bit? level)
  let next ← Word.add? Word.count32 level 1
  let _ ← Word.sub? levels next
  return reference

def references (row : Nat) : Option (List Nat) := do
  let levels ← referenceCount row
  (List.range levels).mapM (reference row levels)

def entryFlaw (H : Hash) (p : Path) (row : Nat) (entry : PathEntry) : Option (Option PathFlaw) :=
  match entry.input with
  | none => return none
  | some input => do
    let references ← references row
    return match references.find? fun r => r ≠ 0 && !p.contains r with
      | some missing => some (.missingReference row missing)
      | none =>
        if H.link input (references.map p.referenceHash) = entry.hash then none
        else some (.hashMismatch row references)

def linkFlaw (H : Hash) (p : Path) : Option (Option PathFlaw) := do
  return (← p.entries.toList.mapM fun e => entryFlaw H p e.1 e.2).findSome? id

def referenced (p : Path) : Option (List Nat) := do
  let links ← (p.entries.toList.filter fun e => e.2.isExpanded).mapM fun e => references e.1
  return links.flatten

def rootFlaw (p : Path) : Option (Option PathFlaw) :=
  match p.required.find? fun r => !p.contains r with
  | some r => return some (.missingRow r)
  | none => do
    let referenced ← referenced p
    return (p.entries.keys.find? fun r => r ≠ p.high && !referenced.contains r).map .unreferenced

def verify (H : Hash) (p : Path) (hash : Digest) (row : Nat) : Option (Except PathFlaw Unit) := do
  match ← linkFlaw H p with
  | some flaw => return .error flaw
  | none => match p.hash? row with
    | none => return .error (.missingRow row)
    | some found =>
      if found ≠ hash then return .error (.unexpectedHash row)
      else match ← rootFlaw p with
        | some flaw => return .error flaw
        | none => return .ok ()

def checkPath (H : Hash) (trusted : Option TrustedRow) (p : Path) : Option (Except PathFlaw Unit) :=
  match trusted with
  | some t => if p.contains t.row then verify H p t.hash t.row else verify H p p.highHash p.high
  | none => verify H p p.highHash p.high

def pathFailure (H : Hash) (trusted : Option TrustedRow) (p : Path) : Option (Option Failure) := do
  match ← checkPath H trusted p with
  | .ok () => return none
  | .error flaw => return some ⟨flaw.row, .path flaw⟩

def learnEntry (p : Path) (a : Authenticated) (row : Nat) (entry : PathEntry) :
    Option Authenticated :=
  match entry.input with
  | none => return a
  | some input =>
    if a.hashes.get? row = some entry.hash then do
      return (← references row).foldl (Authenticated.learnHash p)
        { a with inputs := a.inputs.insert row input }
    else return a

def learnPath (a : Authenticated) (p : Path) : Option Authenticated :=
  p.entries.toList.reverse.foldlM (fun a e => learnEntry p a e.1 e.2) a

def learnAll (paths : List Path) : (fuel : Nat) → Authenticated → Option Authenticated
  | 0, a => return a
  | fuel + 1, a => do
    let b ← paths.foldlM learnPath a
    if b.size = a.size then return b else learnAll paths fuel b

def ofPaths (root : Option (Nat × Digest)) (paths : List Path) : Option Authenticated :=
  learnAll paths (Authenticated.passes paths) (.start root)

def passed (checks : List (Option Failure)) : Option Nat :=
  checks.foldlM (fun n check => if check.isNone then Word.add? Word.count64 n 1 else return n) 0

def ledgerReport (H : Hash) (trusted : Option TrustedRow) (k : Package) : Option LedgerReport := do
  let checked ← k.paths.mapM fun p => do return (p, ← pathFailure H trusted p)
  let paths := checked.map Prod.snd
  let verified := (checked.filter fun c => c.2.isNone).map Prod.fst
  let a ← ofPaths (Package.root? trusted verified) verified
  let sourceRows := k.sourceRowChecks H a
  let textRows ← k.textRowChecks H a
  let attestations := k.attestations.map (Package.attestationFailure? a)
  return {
    name := k.name
    kind := k.info.kind
    pathsVerified := ← passed paths
    sourceRowsVerified := ← passed sourceRows
    textRowsVerified := ← passed textRows
    attestationsVerified := ← passed attestations
    failures := paths.reduceOption ++ (k.untrustedFailure? trusted).toList
      ++ verified.flatMap (Package.linkFailures a) ++ sourceRows.reduceOption
      ++ textRows.reduceOption ++ attestations.reduceOption }

def report (v : Verifier) (m : Morsel) : Option Report :=
  let ledgers := m.ledgers.mapM fun k => ledgerReport m.algorithm.digest (v.trusted? k.name) k
  ledgers.map (.mk m.algorithm)

end SkipChain.Checked
