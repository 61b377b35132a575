import Mathlib.Data.List.ReduceOption
import SkipChain.Proofs.Morsel.RowParsing
import SkipChain.Proofs.Outcome
import SkipChain.Proofs.Path.Check
import SkipChain.Report.Verify
/-!
What each check of a package passes, and the lists that the counters of a report count.
-/
namespace SkipChain

namespace Package

variable {H : Hash} {trusted : Option TrustedRow} {k : Package} {p : Path} {a : Authenticated}

theorem verifySelf_eq_ok_iff : p.verifySelf H = .ok () ↔ p.LinksHold H ∧ p.Rooted := by
  rw [Path.verifySelf, Path.verify_eq_ok_iff]
  refine ⟨fun h => ⟨h.1, h.2.2⟩, fun h => ⟨h.1, ?_, h.2⟩⟩
  have hhigh : p.high ∈ p.required := by
    simp [Path.required, (PathParts.fault?_eq_none_iff.1 p.faultless).1.1]
  obtain ⟨e, he⟩ := Path.contains_iff.1 (h.2.1 p.high hhigh)
  rw [Path.highHash, Path.hash?, he]
  rfl

theorem checkPath_eq_ok_iff :
    checkPath H trusted p = .ok () ↔ p.LinksHold H ∧ p.Rooted ∧
      ∀ t, trusted = some t → p.contains t.row → p.hash? t.row = some t.hash := by
  cases trusted with
  | none => simp [checkPath, verifySelf_eq_ok_iff]
  | some t =>
    by_cases hcontains : p.contains t.row
    · simp [checkPath, hcontains, Path.verify_eq_ok_iff, and_comm]
    · simp [checkPath, hcontains, verifySelf_eq_ok_iff]

theorem pathFailure?_eq_none_iff :
    pathFailure? H trusted p = none ↔ checkPath H trusted p = .ok () := by
  unfold pathFailure?
  cases checkPath H trusted p <;> simp

theorem mem_verifiedPaths :
    p ∈ k.verifiedPaths H trusted ↔ p ∈ k.paths ∧ checkPath H trusted p = .ok () := by
  rw [verifiedPaths, List.mem_filter, Option.isNone_iff_eq_none, pathFailure?_eq_none_iff]

theorem untrustedFailure?_eq_none_iff :
    k.untrustedFailure? trusted = none ↔
      ∀ t, trusted = some t → ∃ p ∈ k.paths, p.contains t.row := by
  cases trusted with
  | none => simp [untrustedFailure?]
  | some t => simp [untrustedFailure?]

theorem rowFailure?_eq_none_iff {finding : Finding} {n : Nat} {row : Row} :
    rowFailure? H a finding n row = none ↔ a.inputs.get? n = some (row.hash H) := by
  unfold rowFailure?
  cases a.inputs.get? n with
  | none => simp
  | some input => simp

theorem attestationFailure?_eq_none_iff {t : RowAttestation} :
    attestationFailure? a t = none ↔ a.hashes.get? t.row = some t.attestation.state := by
  unfold attestationFailure?
  cases a.hashes.get? t.row with
  | none => simp
  | some hash => simp

/-- The raw text has to be read: there is one, with settings, and no salts are needed for it. -/
structure Readable (k : Package) (text : RawText) (parsing : RowParsing) : Prop where
  text : k.rawText = some text
  parsing : k.info.parsing = some parsing
  unsalted : k.info.salt = .noneSalted

def textRows (k : Package) : List (Nat × Row) :=
  match k.rawText, k.info.parsing with
  | some text, some parsing =>
    if k.info.salt = .noneSalted then
      match parsing.rows text.bytes text.first with
      | some (.ok rows) => rows
      | _ => []
    else []
  | _, _ => []

/-- The numbers of the rows that the raw text spells, and the number after the last one, are
words. -/
def NumbersFit (k : Package) : Prop :=
  ∀ text parsing rows, k.Readable text parsing → parsing.spell text.bytes = .ok rows →
    rows = [] ∨ text.first + rows.length < Word.count64

section Readable

variable {text : RawText} {parsing : RowParsing} (hread : k.Readable text parsing)
include hread

/-- What is done with a text that has to be read. All that looks at raw text has this form. -/
theorem Readable.match_eq {β : Type} (f : RawText → RowParsing → β) (b : β) :
    (match k.rawText, k.info.parsing with
      | some text, some parsing => if k.info.salt = .noneSalted then f text parsing else b
      | _, _ => b) = f text parsing := by
  rw [hread.text, hread.parsing]
  exact if_pos hread.unsalted

theorem Readable.textRowChecks_eq (H : Hash) (a : Authenticated) :
    k.textRowChecks H a = (parsing.rows text.bytes text.first).map fun
      | .ok rows => rows.map fun r => rowFailure? H a .textRow r.1 r.2
      | .error e => [some ⟨text.first, .rawText e⟩] := by
  refine (hread.match_eq _ _).trans ?_
  rcases parsing.rows text.bytes text.first with _ | e | rows <;> rfl

theorem Readable.textRows_eq :
    k.textRows = match parsing.rows text.bytes text.first with
      | some (.ok rows) => rows
      | _ => [] :=
  hread.match_eq _ _

theorem Readable.numbersFit_iff :
    k.NumbersFit ↔ ∀ rows, parsing.spell text.bytes = .ok rows →
      rows = [] ∨ text.first + rows.length < Word.count64 := by
  refine ⟨fun h rows => h text parsing rows hread, fun h text' parsing' rows hread' => ?_⟩
  obtain rfl := Option.some.inj (hread.text.symm.trans hread'.text)
  obtain rfl := Option.some.inj (hread.parsing.symm.trans hread'.parsing)
  exact h rows

end Readable

section Unread

variable (hunread : ∀ text parsing, ¬k.Readable text parsing)
include hunread

theorem match_of_unread {β : Type} (f : RawText → RowParsing → β) (b : β) :
    (match k.rawText, k.info.parsing with
      | some text, some parsing => if k.info.salt = .noneSalted then f text parsing else b
      | _, _ => b) = b := by
  split
  · next text parsing htext hparsing =>
    exact if_neg fun hsalt => hunread text parsing ⟨htext, hparsing, hsalt⟩
  · rfl

theorem textRowChecks_of_unread : k.textRowChecks H a = some [] := match_of_unread hunread _ _

theorem textRows_of_unread : k.textRows = [] := match_of_unread hunread _ _

end Unread

theorem readable_or_unread (k : Package) :
    (∃ text parsing, k.Readable text parsing) ∨ ∀ text parsing, ¬k.Readable text parsing := by
  simpa only [not_exists] using em (∃ text parsing, k.Readable text parsing)

def provenSourceRows (H : Hash) (a : Authenticated) (k : Package) : List SourceRow :=
  k.sourceRows.filter fun r => (rowFailure? H a .sourceRow r.row r.cells).isNone

def provenTextRows (H : Hash) (a : Authenticated) (k : Package) : List (Nat × Row) :=
  k.textRows.filter fun r => (rowFailure? H a .textRow r.1 r.2).isNone

def provenAttestations (a : Authenticated) (k : Package) : List RowAttestation :=
  k.attestations.filter fun t => (attestationFailure? a t).isNone

theorem passed_map {α : Type} (check : α → Option Failure) (xs : List α) :
    passed (xs.map check) = (xs.filter fun x => (check x).isNone).length := by
  rw [passed, List.countP_map, List.countP_eq_length_filter]
  rfl

theorem passed_eq_length {α : Type} {check : α → Option Failure} {xs : List α}
    (h : ∀ x ∈ xs, check x = none) : passed (xs.map check) = xs.length := by
  rw [passed_map, List.filter_eq_self.2 fun x hx => by rw [h x hx, Option.isNone_none]]

theorem textRowChecks_cases {checks : List (Option Failure)}
    (h : k.textRowChecks H a = some checks) :
    (checks = k.textRows.map fun r => rowFailure? H a .textRow r.1 r.2) ∨
      k.textRows = [] ∧ ∃ f, checks = [some f] := by
  rcases k.readable_or_unread with ⟨text, parsing, hread⟩ | hunread
  · rw [hread.textRowChecks_eq] at h
    rw [hread.textRows_eq]
    obtain ⟨found, hfound, rfl⟩ := Option.map_eq_some_iff.1 h
    rw [hfound]
    cases found with
    | ok rows => exact .inl rfl
    | error e => exact .inr ⟨rfl, _, rfl⟩
  · rw [textRowChecks_of_unread hunread] at h
    rw [textRows_of_unread hunread]
    exact .inl (Option.some.inj h).symm

theorem textRowChecks_eq_none_iff : k.textRowChecks H a = none ↔ ¬k.NumbersFit := by
  rcases k.readable_or_unread with ⟨text, parsing, hread⟩ | hunread
  · rw [hread.textRowChecks_eq, Option.map_eq_none_iff, RowParsing.rows_eq_none_iff,
      hread.numbersFit_iff]
    simp only [not_forall, not_or, Nat.not_lt, exists_prop]
  · rw [textRowChecks_of_unread hunread]
    simp only [reduceCtorEq, false_iff, not_not]
    exact fun text parsing rows hread => absurd hread (hunread text parsing)

theorem passed_textRowChecks {checks : List (Option Failure)}
    (h : k.textRowChecks H a = some checks) : passed checks = (k.provenTextRows H a).length := by
  rw [provenTextRows, ← passed_map]
  obtain rfl | ⟨hnone, f, rfl⟩ := textRowChecks_cases h
  · rfl
  · rw [hnone]
    rfl

variable {r : LedgerReport}

theorem verify_eq_some_iff :
    k.verify H trusted = some r ↔
      ∃ checks, k.textRowChecks H (k.authenticated H trusted) = some checks ∧
        k.report H trusted (k.authenticated H trusted) checks = r :=
  Option.map_eq_some_iff

theorem verify_eq_none_iff : k.verify H trusted = none ↔ ¬k.NumbersFit :=
  Option.map_eq_none_iff.trans textRowChecks_eq_none_iff

theorem verify_counters (h : k.verify H trusted = some r) :
    r.sourceRowsVerified = (k.provenSourceRows H (k.authenticated H trusted)).length ∧
      r.textRowsVerified = (k.provenTextRows H (k.authenticated H trusted)).length ∧
      r.attestationsVerified = (k.provenAttestations (k.authenticated H trusted)).length := by
  obtain ⟨checks, hchecks, rfl⟩ := verify_eq_some_iff.1 h
  exact ⟨passed_map _ _, passed_textRowChecks hchecks, passed_map _ _⟩

theorem reduceOption_map_eq_nil_iff {α : Type} {check : α → Option Failure} {xs : List α} :
    (xs.map check).reduceOption = [] ↔ ∀ x ∈ xs, check x = none := by
  rw [List.eq_nil_iff_forall_not_mem]
  simp only [List.reduceOption_mem_iff, List.mem_map, not_exists, not_and]
  exact ⟨fun h x hx => Option.eq_none_iff_forall_ne_some.2 fun f => h f x hx,
    fun h f x hx => by simp [h x hx]⟩

theorem textRowChecks_eq_map {checks : List (Option Failure)}
    (h : k.textRowChecks H a = some checks) (hpass : checks.reduceOption = []) :
    checks = k.textRows.map fun r => rowFailure? H a .textRow r.1 r.2 := by
  refine (textRowChecks_cases h).resolve_right fun ⟨_, f, hfault⟩ => ?_
  rw [hfault] at hpass
  cases hpass

theorem linkFailures_eq_nil_iff :
    linkFailures a p = [] ↔
      (∀ n e, p.entry? n = some e → ∀ hash, a.hashes.get? n = some hash → hash = e.hash) ∧
        ∃ n e, p.entry? n = some e ∧ a.hashes.get? n = some e.hash := by
  unfold linkFailures
  simp only [List.append_eq_nil_iff, List.map_eq_nil_iff, List.filter_eq_nil_iff,
    ite_eq_left_iff, List.cons_ne_nil, imp_false, not_not, List.any_eq_true, Prod.exists,
    Prod.forall, NatMap.mem_toList_iff, Option.any_eq_true, decide_eq_true_eq, not_exists, not_and,
    not_forall, exists_prop]
  rfl

theorem failures_eq_nil_iff {checks : List (Option Failure)} :
    (k.report H trusted a checks).failures = [] ↔
      (∀ p ∈ k.paths, checkPath H trusted p = .ok () ∧ linkFailures a p = []) ∧
      (∀ t, trusted = some t → ∃ p ∈ k.paths, p.contains t.row) ∧
      (∀ r ∈ k.sourceRows, rowFailure? H a .sourceRow r.row r.cells = none) ∧
      checks.reduceOption = [] ∧
      ∀ t ∈ k.attestations, attestationFailure? a t = none := by
  simp only [report, List.append_eq_nil_iff, sourceRowChecks, reduceOption_map_eq_nil_iff,
    pathFailure?_eq_none_iff, Option.toList_eq_nil_iff, untrustedFailure?_eq_none_iff,
    List.flatMap_eq_nil_iff, mem_verifiedPaths, and_assoc]
  constructor
  · rintro ⟨hpaths, htrusted, hlinks, hrest⟩
    exact ⟨fun p hp => ⟨hpaths p hp, hlinks p ⟨hp, hpaths p hp⟩⟩, htrusted, hrest⟩
  · rintro ⟨hpaths, htrusted, hrest⟩
    exact ⟨fun p hp => (hpaths p hp).1, htrusted, fun p hp => (hpaths p hp.1).2, hrest⟩

theorem counters_of_clean (h : k.verify H trusted = some r) (clean : r.failures = []) :
    r.pathsVerified = k.paths.length ∧ r.sourceRowsVerified = k.sourceRows.length ∧
      r.textRowsVerified = k.textRows.length ∧
      r.attestationsVerified = k.attestations.length := by
  obtain ⟨checks, hchecks, rfl⟩ := verify_eq_some_iff.1 h
  obtain ⟨hpaths, -, hsourceRows, htext, hattestations⟩ := failures_eq_nil_iff.1 clean
  obtain rfl := textRowChecks_eq_map hchecks htext
  rw [reduceOption_map_eq_nil_iff] at htext
  exact ⟨passed_eq_length fun p hp => pathFailure?_eq_none_iff.2 (hpaths p hp).1,
    passed_eq_length hsourceRows, passed_eq_length htext, passed_eq_length hattestations⟩

end Package

namespace Verifier

variable {v : Verifier} {m : Morsel} {k : Package} {whole : Report}

theorem verify_eq_some_iff :
    v.verify m = some whole ↔ ∃ ledgers,
      m.ledgers.mapM (fun k => k.verify m.algorithm.digest (v.trusted? k.name)) = some ledgers ∧
        ⟨m.algorithm, ledgers⟩ = whole :=
  Option.map_eq_some_iff

theorem verify_ne_none_iff : v.verify m ≠ none ↔ ∀ k ∈ m.ledgers, k.NumbersFit := by
  rw [verify, ne_eq, Option.map_eq_none_iff, ← ne_eq, mapM_ne_none_iff]
  simp only [ne_eq, Package.verify_eq_none_iff, not_not]

theorem exists_report (h : v.verify m = some whole) (hk : k ∈ m.ledgers) :
    ∃ r ∈ whole.ledgers, k.verify m.algorithm.digest (v.trusted? k.name) = some r := by
  obtain ⟨ledgers, hledgers, rfl⟩ := verify_eq_some_iff.1 h
  exact exists_of_mapM hledgers hk

theorem verifyBytes_of_decode {limits : Limits} {data : Bytes}
    (h : Morsel.decode limits data = .ok m) (v : Verifier) :
    v.verifyBytes limits data = (v.verify m).elim (.error .overflow) .ok := by
  rw [verifyBytes, h]
  change (v.verify m).getDM (throw Error.overflow) = _
  cases v.verify m <;> rfl

end Verifier

end SkipChain
