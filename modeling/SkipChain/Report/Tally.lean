import SkipChain.Report.Verify
/-!
Checking a ledger in loops. One report goes through all of them: each check adds to one of its
counters or to its failures.
-/
namespace SkipChain

inductive Counter where
  | paths
  | sourceRows
  | textRows
  | attestations

namespace LedgerReport

variable {r : LedgerReport} {c : Counter} {m n : Nat} {front back : List Failure}

def blank (name : String) (kind : LedgerKind) : LedgerReport := ⟨name, kind, 0, 0, 0, 0, []⟩

def add (r : LedgerReport) (c : Counter) (n : Nat) : LedgerReport :=
  match c with
  | .paths => { r with pathsVerified := r.pathsVerified + n }
  | .sourceRows => { r with sourceRowsVerified := r.sourceRowsVerified + n }
  | .textRows => { r with textRowsVerified := r.textRowsVerified + n }
  | .attestations => { r with attestationsVerified := r.attestationsVerified + n }

def blame (r : LedgerReport) (failures : List Failure) : LedgerReport :=
  { r with failures := r.failures ++ failures }

@[simp] theorem add_zero : r.add c 0 = r := by cases c <;> rfl

@[simp] theorem add_add : (r.add c m).add c n = r.add c (m + n) := by
  cases c <;> simp only [add, Nat.add_assoc]

@[simp] theorem failures_add : (r.add c n).failures = r.failures := by cases c <;> rfl

@[simp] theorem blame_nil : r.blame [] = r := by rw [blame, List.append_nil]

@[simp] theorem blame_blame : (r.blame front).blame back = r.blame (front ++ back) := by
  rw [blame, blame, blame, List.append_assoc]

@[simp] theorem failures_blame : (r.blame back).failures = r.failures ++ back := rfl

theorem add_blame : (r.blame back).add c n = (r.add c n).blame back := by cases c <;> rfl

end LedgerReport

namespace Package

/-- What the loop through the paths leaves behind: the report, the paths that are verified, and
whether some path contains the trusted row. -/
structure PathTally where
  report : LedgerReport
  verified : List Path
  anchored : Bool

def tallyPath (H : Hash) (trusted : Option TrustedRow) (s : PathTally) (p : Path) : PathTally :=
  let anchored := s.anchored || trusted.any fun t => p.contains t.row
  match checkPath H trusted p with
  | .ok () => ⟨s.report.add .paths 1, s.verified ++ [p], anchored⟩
  | .error flaw => ⟨s.report.blame [⟨flaw.row, .path flaw⟩], s.verified, anchored⟩

def tallyTrust (trusted : Option TrustedRow) (anchored : Bool) (r : LedgerReport) : LedgerReport :=
  match trusted with
  | some t => if anchored then r else r.blame [⟨t.row, .untrusted⟩]
  | none => r

def tallyEntry (a : Authenticated) (s : LedgerReport × Bool) (e : Nat × PathEntry) :
    LedgerReport × Bool :=
  match a.hashes.get? e.1 with
  | some hash =>
    if hash = e.2.hash then (s.1, true) else (s.1.blame [⟨e.1, .inconsistent⟩], s.2)
  | none => s

def tallyLinks (a : Authenticated) (r : LedgerReport) (p : Path) : LedgerReport :=
  let (r, linked) := p.entries.toList.foldl (tallyEntry a) (r, false)
  if linked then r else r.blame [⟨p.high, .disconnected⟩]

def checkRow (H : Hash) (a : Authenticated) (finding : Finding) (r : LedgerReport) (n : Nat)
    (row : Row) : LedgerReport × Bool :=
  match a.inputs.get? n with
  | some input => if input = row.hash H then (r, true) else (r.blame [⟨n, finding⟩], false)
  | none => (r.blame [⟨n, .unprovenRow⟩], false)

def tallyRow (H : Hash) (a : Authenticated) (c : Counter) (finding : Finding) (r : LedgerReport)
    (n : Nat) (row : Row) : LedgerReport :=
  let (r, passes) := checkRow H a finding r n row
  if passes then r.add c 1 else r

def tallyText (H : Hash) (a : Authenticated) (k : Package) (r : LedgerReport) :
    Option LedgerReport :=
  match k.rawText, k.info.parsing with
  | some text, some parsing =>
    if k.info.salt = .noneSalted then do
      match ← parsing.rows text.bytes text.first with
      | .ok rows => return rows.foldl (fun r row => tallyRow H a .textRows .textRow r row.1 row.2) r
      | .error e => return r.blame [⟨text.first, .rawText e⟩]
    else return r
  | _, _ => return r

def tallyAttestation (a : Authenticated) (r : LedgerReport) (t : RowAttestation) : LedgerReport :=
  match a.hashes.get? t.row with
  | some hash =>
    if hash = t.attestation.state then r.add .attestations 1
    else r.blame [⟨t.row, .attestation⟩]
  | none => r.blame [⟨t.row, .unprovenAttestation⟩]

def tally (H : Hash) (trusted : Option TrustedRow) (k : Package) : Option LedgerReport := do
  let s := k.paths.foldl (tallyPath H trusted) ⟨.blank k.name k.info.kind, [], false⟩
  let r := tallyTrust trusted s.anchored s.report
  let a := Authenticated.ofPaths (root? trusted s.verified) s.verified
  let r := s.verified.foldl (tallyLinks a) r
  let r := k.sourceRows.foldl (fun r s => tallyRow H a .sourceRows .sourceRow r s.row s.cells) r
  let r ← k.tallyText H a r
  return k.attestations.foldl (tallyAttestation a) r

end Package

end SkipChain
