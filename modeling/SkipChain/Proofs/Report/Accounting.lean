import SkipChain.Proofs.Report.Confluence
import SkipChain.Report.Tally
/-!
A report accounts for all that a morsel claims: each path, row and attestation adds one to its
counter, or a failure that tells what is wrong with it. So the counters of a report without failures
are complete.
-/
namespace SkipChain

namespace LedgerReport

/-- Item by item, `step` leads from one report to another. -/
inductive Through {α : Type} (step : α → LedgerReport → LedgerReport → Prop) :
    List α → LedgerReport → LedgerReport → Prop
  | nil {r} : Through step [] r r
  | cons {x xs r s t} (first : step x r s) (rest : Through step xs s t) : Through step (x :: xs) r t

/-- An item adds one to a counter if nothing is wrong with it, and a failure if something is. -/
inductive Adds (c : Counter) (judged : Option Failure → Prop) (r : LedgerReport) :
    LedgerReport → Prop
  | passes (sound : judged none) : Adds c judged r (r.add c 1)
  | fails {f} (flawed : judged (some f)) : Adds c judged r (r.blame [f])

variable {α : Type} {c : Counter} {r s : LedgerReport} {xs : List α}

theorem Through.foldl {σ : Type} {step : α → LedgerReport → LedgerReport → Prop} {f : σ → α → σ}
    (report : σ → LedgerReport) (h : ∀ s x, step x (report s) (report (f s x))) (xs : List α)
    (s : σ) : Through step xs (report s) (report (xs.foldl f s)) := by
  induction xs generalizing s with
  | nil => exact .nil
  | cons x xs ih => exact .cons (h s x) (ih _)

theorem Through.eq_blame {step : α → LedgerReport → LedgerReport → Prop}
    {failures : α → List Failure} (hstep : ∀ x r s, step x r s → s = r.blame (failures x))
    (h : Through step xs r s) : s = r.blame (xs.flatMap failures) := by
  induction h with
  | nil => exact blame_nil.symm
  | cons first _ ih => rw [ih, hstep _ _ _ first, blame_blame, List.flatMap_cons]

theorem Through.eq_add_blame {judged : α → Option Failure → Prop} {check : α → Option Failure}
    (hcheck : ∀ x v, judged x v → v = check x)
    (h : Through (fun x => Adds c (judged x)) xs r s) :
    s = (r.add c (Package.passed (xs.map check))).blame (xs.map check).reduceOption := by
  induction h with
  | nil => exact (blame_nil.trans add_zero).symm
  | cons first _ ih =>
    rw [ih, List.map_cons, Package.passed, Package.passed]
    cases first with
    | passes sound =>
      rw [← hcheck _ _ sound, List.reduceOption_cons_of_none, List.countP_cons_of_pos rfl, add_add,
        Nat.add_comm]
    | fails flawed =>
      rw [← hcheck _ _ flawed, List.reduceOption_cons_of_some, List.countP_cons_of_neg (by simp),
        add_blame, blame_blame, List.singleton_append]

end LedgerReport

namespace Package

open LedgerReport (Adds Through)

variable {H : Hash} {trusted : Option TrustedRow} {k : Package} {a : Authenticated} {p : Path}

inductive PathJudged (H : Hash) (trusted : Option TrustedRow) (p : Path) : Option Failure → Prop
  | verifies (h : checkPath H trusted p = .ok ()) : PathJudged H trusted p none
  | flawed {flaw} (h : checkPath H trusted p = .error flaw) :
      PathJudged H trusted p (some ⟨flaw.row, .path flaw⟩)

/-- The hash claimed for a row is either the one known, or one is known that is another, or none
is known. -/
inductive HashJudged (known : Option Digest) (claimed : Digest) (row : Nat)
    (unproven different : Finding) : Option Failure → Prop
  | agrees (h : known = some claimed) : HashJudged known claimed row unproven different none
  | unknown (h : known = none) :
      HashJudged known claimed row unproven different (some ⟨row, unproven⟩)
  | differs {hash} (h : known = some hash) (hne : hash ≠ claimed) :
      HashJudged known claimed row unproven different (some ⟨row, different⟩)

def RowJudged (H : Hash) (a : Authenticated) (finding : Finding) (n : Nat) (row : Row) :
    Option Failure → Prop :=
  HashJudged (a.inputs.get? n) (row.hash H) n .unprovenRow finding

def AttestationJudged (a : Authenticated) (t : RowAttestation) : Option Failure → Prop :=
  HashJudged (a.hashes.get? t.row) t.attestation.state t.row .unprovenAttestation .attestation

inductive Anchors (trusted : Option TrustedRow) (k : Package) (r : LedgerReport) :
    LedgerReport → Prop
  | anchored (h : ∀ t, trusted = some t → ∃ p ∈ k.paths, p.contains t.row) : Anchors trusted k r r
  | untrusted {t} (h : trusted = some t) (hnone : ∀ p ∈ k.paths, ¬p.contains t.row) :
      Anchors trusted k r (r.blame [⟨t.row, .untrusted⟩])

inductive Compares (a : Authenticated) (e : Nat × PathEntry) (r : LedgerReport) :
    LedgerReport → Prop
  | consistent (h : ∀ hash, a.hashes.get? e.1 = some hash → hash = e.2.hash) : Compares a e r r
  | inconsistent {hash} (h : a.hashes.get? e.1 = some hash) (hne : hash ≠ e.2.hash) :
      Compares a e r (r.blame [⟨e.1, .inconsistent⟩])

def Linked (a : Authenticated) (p : Path) : Prop :=
  ∃ n e, p.entry? n = some e ∧ a.hashes.get? n = some e.hash

inductive Links (a : Authenticated) (p : Path) (r : LedgerReport) : LedgerReport → Prop
  | linked {s} (entries : Through (Compares a) p.entries.toList r s) (h : Linked a p) :
      Links a p r s
  | disconnected {s} (entries : Through (Compares a) p.entries.toList r s) (h : ¬Linked a p) :
      Links a p r (s.blame [⟨p.high, .disconnected⟩])

inductive Spells (H : Hash) (a : Authenticated) (k : Package) (r : LedgerReport) :
    LedgerReport → Prop
  | rows {text parsing rows s} (h : k.Readable text parsing)
      (hrows : parsing.rows text.bytes text.first = some (.ok rows))
      (each : Through (fun row => Adds .textRows (RowJudged H a .textRow row.1 row.2)) rows r s) :
      Spells H a k r s
  | malformed {text parsing e} (h : k.Readable text parsing)
      (hrows : parsing.rows text.bytes text.first = some (.error e)) :
      Spells H a k r (r.blame [⟨text.first, .rawText e⟩])
  | unread (h : ∀ text parsing, ¬k.Readable text parsing) : Spells H a k r r

/-- A report that starts blank and to which each part of a package adds in turn, and nothing else
does. -/
inductive Accounts (H : Hash) (trusted : Option TrustedRow) (k : Package) (a : Authenticated)
    (r : LedgerReport) : Prop
  | intro {r₁ r₂ r₃ r₄ r₅}
      (paths : Through (fun p => Adds .paths (PathJudged H trusted p)) k.paths
        (.blank k.name k.info.kind) r₁)
      (anchor : Anchors trusted k r₁ r₂)
      (links : Through (Links a) (k.verifiedPaths H trusted) r₂ r₃)
      (sourceRows : Through (fun s => Adds .sourceRows (RowJudged H a .sourceRow s.row s.cells))
        k.sourceRows r₃ r₄)
      (text : Spells H a k r₄ r₅)
      (attestations : Through (fun t => Adds .attestations (AttestationJudged a t)) k.attestations
        r₅ r)

section Loops

variable (H : Hash) (trusted : Option TrustedRow) (a : Authenticated) (k : Package)

theorem adds_tallyPath (s : PathTally) (p : Path) :
    Adds .paths (PathJudged H trusted p) s.report (tallyPath H trusted s p).report := by
  unfold tallyPath
  cases h : checkPath H trusted p with
  | ok _ => exact .passes (.verifies h)
  | error flaw => exact .fails (.flawed h)

theorem foldl_tallyPath (paths : List Path) (s : PathTally) :
    (paths.foldl (tallyPath H trusted) s).verified =
        s.verified ++ paths.filter (fun p => (pathFailure? H trusted p).isNone) ∧
      (paths.foldl (tallyPath H trusted) s).anchored =
        (s.anchored || paths.any fun p => trusted.any fun t => p.contains t.row) := by
  induction paths generalizing s with
  | nil => simp
  | cons p paths ih =>
    rw [List.foldl_cons, (ih _).1, (ih _).2]
    cases h : checkPath H trusted p with
    | ok _ => simp [tallyPath, pathFailure?, h, Bool.or_assoc]
    | error flaw => simp [tallyPath, pathFailure?, h, Bool.or_assoc]

theorem anchors_tallyTrust (r : LedgerReport) :
    Anchors trusted k r
      (tallyTrust trusted (k.paths.any fun p => trusted.any fun t => p.contains t.row) r) := by
  cases trusted with
  | none => exact .anchored nofun
  | some t =>
    simp only [tallyTrust, Option.any_some]
    split
    · next h => exact .anchored fun _ ht => Option.some_inj.1 ht ▸ List.any_eq_true.1 h
    · next h => exact .untrusted rfl fun p hp hcontains => h (List.any_eq_true.2 ⟨p, hp, hcontains⟩)

theorem compares_tallyEntry (s : LedgerReport × Bool) (e : Nat × PathEntry) :
    Compares a e s.1 (tallyEntry a s e).1 := by
  unfold tallyEntry
  cases h : a.hashes.get? e.1 with
  | none => exact .consistent (by simp [h])
  | some hash =>
    dsimp only
    split
    · next heq => exact .consistent (by simp [h, heq])
    · next hne => exact .inconsistent h hne

theorem foldl_tallyEntry (entries : List (Nat × PathEntry)) (s : LedgerReport × Bool) :
    (entries.foldl (tallyEntry a) s).2 =
      (s.2 || entries.any fun e => a.hashes.get? e.1 = some e.2.hash) := by
  induction entries generalizing s with
  | nil => simp
  | cons e entries ih =>
    rw [List.foldl_cons, ih, List.any_cons, ← Bool.or_assoc]
    congr 1
    unfold tallyEntry
    cases a.hashes.get? e.1 with
    | none => simp
    | some hash => by_cases h : hash = e.2.hash <;> simp [h]

variable {a} in
theorem linked_iff :
    Linked a p ↔ p.entries.toList.any fun e => a.hashes.get? e.1 = some e.2.hash := by
  simp only [Linked, List.any_eq_true, decide_eq_true_eq, Prod.exists, NatMap.mem_toList_iff]
  rfl

theorem links_tallyLinks (r : LedgerReport) (p : Path) : Links a p r (tallyLinks a r p) := by
  have hentries := Through.foldl Prod.fst (compares_tallyEntry a) p.entries.toList (r, false)
  have hlinked : (p.entries.toList.foldl (tallyEntry a) (r, false)).2 ↔ Linked a p := by
    rw [foldl_tallyEntry, linked_iff, Bool.false_or]
  unfold tallyLinks
  dsimp only
  split
  · next h => exact .linked hentries (hlinked.1 h)
  · next h => exact .disconnected hentries (mt hlinked.2 h)

theorem adds_tallyRow (c : Counter) (finding : Finding) (r : LedgerReport) (n : Nat) (row : Row) :
    Adds c (RowJudged H a finding n row) r (tallyRow H a c finding r n row) := by
  unfold tallyRow checkRow
  cases h : a.inputs.get? n with
  | none => exact .fails (.unknown h)
  | some input =>
    dsimp only
    split
    · next heq => exact .passes (.agrees (heq ▸ h))
    · next hne => exact .fails (.differs h hne)

theorem adds_tallyAttestation (r : LedgerReport) (t : RowAttestation) :
    Adds .attestations (AttestationJudged a t) r (tallyAttestation a r t) := by
  unfold tallyAttestation
  cases h : a.hashes.get? t.row with
  | none => exact .fails (.unknown h)
  | some hash =>
    dsimp only
    split
    · next heq => exact .passes (.agrees (heq ▸ h))
    · next hne => exact .fails (.differs h hne)

theorem tallyText_of_unread {r : LedgerReport} (h : ∀ text parsing, ¬k.Readable text parsing) :
    k.tallyText H a r = some r :=
  match_of_unread h _ _

theorem tallyText_of_readable {text : RawText} {parsing : RowParsing} {r : LedgerReport}
    (h : k.Readable text parsing) :
    k.tallyText H a r = (parsing.rows text.bytes text.first).map fun
      | .ok rows => rows.foldl (fun r row => tallyRow H a .textRows .textRow r row.1 row.2) r
      | .error e => r.blame [⟨text.first, .rawText e⟩] := by
  refine (h.match_eq _ _).trans ?_
  rcases parsing.rows text.bytes text.first with _ | e | rows <;> rfl

theorem spells_tallyText {r s : LedgerReport} (htally : k.tallyText H a r = some s) :
    Spells H a k r s := by
  rcases k.readable_or_unread with ⟨text, parsing, h⟩ | h
  · rw [tallyText_of_readable H a k h] at htally
    obtain ⟨found, hrows, rfl⟩ := Option.map_eq_some_iff.1 htally
    cases found with
    | ok rows =>
      exact .rows h hrows
        (Through.foldl id (fun r row => adds_tallyRow H a _ _ r row.1 row.2) rows r)
    | error e => exact .malformed h hrows
  · rw [tallyText_of_unread H a k h] at htally
    obtain rfl := Option.some.inj htally
    exact .unread h

theorem tallyText_eq_none_iff {r : LedgerReport} :
    k.tallyText H a r = none ↔ k.textRowChecks H a = none := by
  rcases k.readable_or_unread with ⟨text, parsing, h⟩ | h
  · rw [tallyText_of_readable H a k h, h.textRowChecks_eq, Option.map_eq_none_iff,
      Option.map_eq_none_iff]
  · rw [tallyText_of_unread H a k h, textRowChecks_of_unread h]
    simp only [reduceCtorEq]

theorem tally_eq :
    k.tally H trusted =
      let s := k.paths.foldl (tallyPath H trusted) ⟨.blank k.name k.info.kind, [], false⟩
      let a := k.authenticated H trusted
      let anchored := k.paths.any fun p => trusted.any fun t => p.contains t.row
      let r := tallyTrust trusted anchored s.report
      let r := (k.verifiedPaths H trusted).foldl (tallyLinks a) r
      let r := k.sourceRows.foldl (fun r s => tallyRow H a .sourceRows .sourceRow r s.row s.cells) r
      (k.tallyText H a r).map (k.attestations.foldl (tallyAttestation a)) := by
  obtain ⟨hverified, hanchored⟩ := foldl_tallyPath H trusted k.paths
    ⟨.blank k.name k.info.kind, [], false⟩
  simp only [List.nil_append, Bool.false_or] at hverified hanchored
  -- the other loops read what the loop through the paths leaves behind
  unfold tally
  simp only [hverified, hanchored]
  exact Option.map_eq_bind.symm

theorem accounts_tally {r : LedgerReport} (h : k.tally H trusted = some r) :
    k.Accounts H trusted (k.authenticated H trusted) r := by
  rw [tally_eq] at h
  obtain ⟨s, htext, rfl⟩ := Option.map_eq_some_iff.1 h
  have hpaths := Through.foldl PathTally.report (adds_tallyPath H trusted) k.paths
    ⟨.blank k.name k.info.kind, [], false⟩
  exact .intro hpaths (anchors_tallyTrust trusted k _)
    (Through.foldl id (links_tallyLinks _) _ _)
    (Through.foldl id (fun r s => adds_tallyRow H _ _ _ r s.row s.cells) _ _)
    (spells_tallyText H _ k htext) (Through.foldl id (adds_tallyAttestation _) _ _)

end Loops

section Determined

variable {r s : LedgerReport}

theorem PathJudged.eq {v : Option Failure} (h : PathJudged H trusted p v) :
    v = pathFailure? H trusted p := by
  cases h with
  | verifies h => rw [pathFailure?, h]
  | flawed h => rw [pathFailure?, h]

theorem HashJudged.eq {known : Option Digest} {claimed : Digest} {row : Nat}
    {unproven different : Finding} {v : Option Failure} :
    HashJudged known claimed row unproven different v → v = match known with
      | none => some ⟨row, unproven⟩
      | some hash => if hash = claimed then none else some ⟨row, different⟩
  | .agrees h => by simp [h]
  | .unknown h => by simp [h]
  | .differs h hne => by simp [h, hne]

theorem RowJudged.eq {finding : Finding} {n : Nat} {row : Row} {v : Option Failure}
    (h : RowJudged H a finding n row v) : v = rowFailure? H a finding n row :=
  HashJudged.eq h

theorem AttestationJudged.eq {t : RowAttestation} {v : Option Failure}
    (h : AttestationJudged a t v) : v = attestationFailure? a t :=
  HashJudged.eq h

theorem Anchors.eq (h : Anchors trusted k r s) :
    s = r.blame (k.untrustedFailure? trusted).toList := by
  cases h with
  | anchored h => rw [untrustedFailure?_eq_none_iff.2 h, Option.toList_none, LedgerReport.blame_nil]
  | untrusted h hnone =>
    have hnot : ¬k.paths.any (·.contains _) := fun hany =>
      have ⟨p, hp, hcontains⟩ := List.any_eq_true.1 hany
      hnone p hp hcontains
    simp [untrustedFailure?, h, hnot]

theorem eq_blame_of_compares {entries : List (Nat × PathEntry)}
    (h : Through (Compares a) entries r s) :
    s = r.blame ((entries.filter fun e => (a.hashes.get? e.1).any (· ≠ e.2.hash)).map
      fun e => ⟨e.1, .inconsistent⟩) := by
  induction h with
  | nil => exact LedgerReport.blame_nil.symm
  | cons first _ ih =>
    rw [ih]
    cases first with
    | consistent h =>
      rw [List.filter_cons_of_neg]
      simpa [Option.any_eq_true] using h
    | inconsistent h hne =>
      rw [List.filter_cons_of_pos (by simpa [h] using hne), LedgerReport.blame_blame,
        List.map_cons, List.singleton_append]

theorem Links.eq (h : Links a p r s) : s = r.blame (linkFailures a p) := by
  unfold linkFailures
  dsimp only
  cases h with
  | linked entries h => rw [eq_blame_of_compares entries, if_pos (linked_iff.1 h), List.append_nil]
  | disconnected entries h =>
    rw [eq_blame_of_compares entries, if_neg (mt linked_iff.2 h), LedgerReport.blame_blame]

theorem Spells.eq (h : Spells H a k r s) :
    ∃ checks, k.textRowChecks H a = some checks ∧
      s = (r.add .textRows (passed checks)).blame checks.reduceOption := by
  cases h with
  | rows h hrows each =>
    refine ⟨_, by rw [h.textRowChecks_eq, hrows, Option.map_some], ?_⟩
    exact each.eq_add_blame fun _ _ => RowJudged.eq
  | malformed h hrows =>
    refine ⟨_, by rw [h.textRowChecks_eq, hrows, Option.map_some], ?_⟩
    exact congrArg (LedgerReport.blame · _) LedgerReport.add_zero.symm
  | unread h =>
    refine ⟨[], textRowChecks_of_unread h, ?_⟩
    exact (LedgerReport.blame_nil.trans LedgerReport.add_zero).symm

theorem Accounts.verify_eq (h : k.Accounts H trusted (k.authenticated H trusted) r) :
    k.verify H trusted = some r := by
  obtain ⟨paths, anchor, links, sourceRows, text, attestations⟩ := h
  have hpaths := paths.eq_add_blame fun _ _ h => h.eq
  have hlinks := links.eq_blame fun _ _ _ h => h.eq
  have hsourceRows := sourceRows.eq_add_blame fun _ _ h => h.eq
  have hattestations := attestations.eq_add_blame fun _ _ h => h.eq
  obtain ⟨checks, hchecks, htext⟩ := text.eq
  refine verify_eq_some_iff.2 ⟨checks, hchecks, ?_⟩
  rw [hattestations, htext, hsourceRows, hlinks, anchor.eq, hpaths]
  simp only [LedgerReport.add, LedgerReport.blame, LedgerReport.blank, Nat.zero_add]
  rfl

theorem tally_eq_verify (H : Hash) (trusted : Option TrustedRow) (k : Package) :
    k.tally H trusted = k.verify H trusted := by
  cases htally : k.tally H trusted with
  | some r => exact (accounts_tally H trusted k htally).verify_eq.symm
  | none =>
    rw [tally_eq] at htally
    exact (Option.map_eq_none_iff.2
      ((tallyText_eq_none_iff H _ k).1 (Option.map_eq_none_iff.1 htally))).symm

end Determined

end Package

namespace Verifier

/-- There is a report exactly if the numbers of the rows that the texts spell are words. The report of
each ledger accounts for all that the morsel claims of it, and if the report is valid, its counters
are the numbers of paths, rows and attestations that there are. -/
theorem verify_accounts (v : Verifier) (m : Morsel) :
    (v.verify m ≠ none ↔ ∀ k ∈ m.ledgers, k.NumbersFit) ∧
      ∀ report, v.verify m = some report →
        List.Forall₂ (fun k r =>
            let H := m.algorithm.digest
            let trusted := v.trusted? k.name
            k.Accounts H trusted (k.authenticated H trusted) r ∧
              (r.isValid →
                r.pathsVerified = k.paths.length ∧ r.sourceRowsVerified = k.sourceRows.length ∧
                  r.textRowsVerified = k.textRows.length ∧
                  r.attestationsVerified = k.attestations.length))
          m.ledgers report.ledgers := by
  refine ⟨verify_ne_none_iff, fun report hreport => ?_⟩
  obtain ⟨ledgers, hledgers, rfl⟩ := verify_eq_some_iff.1 hreport
  refine (mapM_eq_some_iff.1 hledgers).imp fun k r hverify => ⟨?_, fun valid => ?_⟩
  · rw [← Package.tally_eq_verify] at hverify
    exact Package.accounts_tally _ _ k hverify
  · exact Package.counters_of_clean hverify (List.isEmpty_iff.1 valid)

def reboot : Package where
  info := { LedgerInfo.new .log "log" with parsing := some .lines }
  paths := [Package.lowerBoot, Package.upperBoot]
  sourceRows := [⟨2, bootRow⟩]
  rawText := some ⟨1, Utf8.encode "boot\nboot\n"⟩
  attestations := [⟨1, ⟨Package.twiceBooted.hashBelow 1, 0, []⟩⟩]

theorem verify_accounts_reboot :
    ∃ report r, new.verify ⟨.sha256, none, none, [reboot]⟩ = some report ∧ report.ledgers = [r] ∧
      r.isValid ∧ r.pathsVerified = 2 ∧ r.sourceRowsVerified = 1 ∧ r.textRowsVerified = 2 ∧
      r.attestationsVerified = 1 := by
  have evaluated : (new.verify ⟨.sha256, none, none, [reboot]⟩).any Report.isValid ∧
      reboot.textRows.length = 2 := by
    decide +kernel
  obtain ⟨hvalid, htextRows⟩ := evaluated
  obtain ⟨report, hreport, valid⟩ := (Option.any_eq_true _ _).1 hvalid
  obtain ⟨r, rest, ⟨-, hcounters⟩, hrest, hledgers⟩ :=
    List.forall₂_cons_left_iff.1 ((verify_accounts new _).2 report hreport)
  obtain rfl := List.forall₂_nil_left_iff.1 hrest
  have hr : r.isValid := List.all_eq_true.1 valid r (hledgers ▸ List.mem_cons_self)
  obtain ⟨hpaths, hsourceRows, htext, hattestations⟩ := hcounters hr
  exact ⟨report, r, hreport, hledgers, hr, hpaths, hsourceRows, htext.trans htextRows,
    hattestations⟩

end Verifier

end SkipChain
