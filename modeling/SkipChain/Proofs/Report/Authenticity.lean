import Mathlib.Control.Monad.Basic
import SkipChain.Proofs.Path.Soundness
import SkipChain.Proofs.Report.Checks
/-!
What is authenticated from a true root is true. Forged paths may stand among the honest ones in any
order: they are followed from rows that a ledger has, and there their links are the ledger's.
-/
namespace SkipChain

namespace Authenticated

variable {l : Ledger} {top n : Nat} {a : Authenticated} {p : Path} {e : PathEntry}

/-- All that is authenticated is the ledger's, of the rows from 1 to `top`. -/
structure TrueOf (l : Ledger) (top : Nat) (a : Authenticated) : Prop where
  hashes : ∀ n hash, a.hashes.get? n = some hash → n ≠ 0 ∧ n ≤ top ∧ l.rowHash n = .ok hash
  inputs : ∀ n input, a.inputs.get? n = some input → n ≠ 0 ∧ n ≤ top ∧ l.inputHash n = .ok input

theorem TrueOf.start {root : Option (Nat × Digest)}
    (h : ∀ n hash, root = some (n, hash) → n ≠ 0 ∧ n ≤ top ∧ l.rowHash n = .ok hash) :
    (start root).TrueOf l top :=
  ⟨fun n hash hget => h n hash (get?_start.1 hget), fun n input hget => by cases hget⟩

theorem TrueOf.learnEntry_of_links (h : a.TrueOf l top)
    (hlearn : ∀ input, e.input = some input → a.hashes.get? n = some e.hash →
      l.inputHash n = .ok input ∧ ∀ r ∈ Skip.references n, ∀ hash, p.hash? r = some hash →
        l.rowHash r = .ok hash) :
    (Authenticated.learnEntry p a n e).TrueOf l top := by
  refine learnEntry_induct h fun input hinput hknown => ?_
  obtain ⟨hn, htop, _⟩ := h.hashes n e.hash hknown
  obtain ⟨htrue, hbelow⟩ := hlearn input hinput hknown
  refine ⟨⟨h.hashes, fun m found hget => ?_⟩, ?_⟩
  · rw [NatMap.get?_insert] at hget
    split at hget
    · next hm =>
      rw [hm, ← Option.some.inj hget]
      exact ⟨hn, htop, htrue⟩
    · exact h.inputs m found hget
  · intro b r hash hr hfound _ hb
    obtain ⟨e', he', _⟩ := Path.hash?_eq_some_iff.1 hfound
    have hlt := Skip.lt_of_mem_references hr
    refine ⟨fun m other hget => ?_, hb.inputs⟩
    rw [NatMap.get?_insert] at hget
    split at hget
    · next hm =>
      rw [hm, ← Option.some.inj hget]
      exact ⟨(Path.entry_bounds he').1, by omega, hbelow r hr hash hfound⟩
    · exact hb.hashes m other hget

theorem TrueOf.learnEntry (h : a.TrueOf l top) (linked : l.Linked)
    (links : p.LinksHold l.algorithm.digest)
    (free : l.algorithm.digest.CollisionFree (l.linkPreimages top ++ p.linkPreimages))
    (he : p.entry? n = some e) : (learnEntry p a n e).TrueOf l top := by
  refine h.learnEntry_of_links fun input hinput hknown => ?_
  obtain ⟨_, htop, hhash⟩ := h.hashes n e.hash hknown
  obtain ⟨htrue, hbelow⟩ := links.confirms linked free htop he hhash hinput
  refine ⟨htrue, fun r hr hash hfound => ?_⟩
  obtain ⟨e', he', _⟩ := Path.hash?_eq_some_iff.1 hfound
  obtain ⟨found, hfound', hr'⟩ := hbelow r hr (Path.entry_bounds he').1
  rw [hfound] at hfound'
  rw [hr', Option.some.inj hfound']

end Authenticated

namespace Package

variable {H : Hash} {trusted : Option TrustedRow} {k : Package} {l : Ledger} {top : Nat}

theorem eq_nil_of_highest {ps : List Path} (h : highest ps = none) : ps = [] := by
  cases ps with
  | nil => rfl
  | cons p ps =>
    unfold highest at h
    cases hrest : highest ps with
    | none => simp [hrest] at h
    | some q =>
      simp only [hrest] at h
      split at h <;> cases h

theorem highest_mem {ps : List Path} {p : Path} (h : highest ps = some p) : p ∈ ps := by
  induction ps with
  | nil => simp [highest] at h
  | cons q ps ih =>
    unfold highest at h
    cases hrest : highest ps with
    | none =>
      rw [hrest] at h
      rw [← Option.some.inj h]
      exact List.mem_cons_self
    | some r =>
      simp only [hrest] at h
      split at h
      · exact List.mem_cons_of_mem _ (ih (by rw [hrest, h]))
      · rw [← Option.some.inj h]
        exact List.mem_cons_self

theorem highest_of_split {before after : List Path} {p : Path}
    (hbefore : ∀ q ∈ before, q.high < p.high) (hafter : ∀ q ∈ after, q.high ≤ p.high) :
    highest (before ++ p :: after) = some p := by
  induction before with
  | nil =>
    rw [List.nil_append, highest]
    cases hrest : highest after with
    | none => rfl
    | some q =>
      have hq := hafter q (highest_mem hrest)
      simp only [if_neg (Nat.not_lt.2 hq)]
  | cons q before ih =>
    have hq := hbefore q List.mem_cons_self
    rw [List.cons_append, highest, ih fun r hr => hbefore r (List.mem_cons_of_mem _ hr)]
    simp only [if_pos hq]

/-- Authentication starts from a hash of the ledger: the trusted one of row `top`, or, when nothing
is trusted, the one that the first of the highest verified paths has for its high row `top`. -/
def Anchored (H : Hash) (trusted : Option TrustedRow) (k : Package) (l : Ledger) (top : Nat) :
    Prop :=
  (∃ t, trusted = some t ∧ t.row = top ∧ 1 ≤ top ∧ l.rowHash top = .ok t.hash) ∨
    trusted = none ∧ ∃ before p after, k.verifiedPaths H none = before ++ p :: after ∧
      (∀ q ∈ before, q.high < p.high) ∧ (∀ q ∈ after, q.high ≤ p.high) ∧
      p.high = top ∧ l.rowHash top = .ok p.highHash

theorem Anchored.root (anchored : k.Anchored H trusted l top) {n : Nat} {hash : Digest}
    (h : root? trusted (k.verifiedPaths H trusted) = some (n, hash)) :
    n ≠ 0 ∧ n ≤ top ∧ l.rowHash n = .ok hash := by
  rcases anchored with ⟨t, rfl, rfl, hpos, hhash⟩ |
    ⟨rfl, before, p, after, hsplit, hbefore, hafter, rfl, hhash⟩
  · obtain ⟨rfl, rfl⟩ := Prod.mk.inj (Option.some.inj h)
    exact ⟨by omega, Nat.le_refl _, hhash⟩
  · rw [root?, hsplit, highest_of_split hbefore hafter] at h
    obtain ⟨rfl, rfl⟩ := Prod.mk.inj (Option.some.inj h)
    have hpos := (PathParts.fault?_eq_none_iff.1 p.faultless).1.1
    exact ⟨hpos, Nat.le_refl _, hhash⟩

theorem Anchored.authenticated_trueOf
    (anchored : k.Anchored l.algorithm.digest trusted l top) (linked : l.Linked)
    (free : l.algorithm.digest.CollisionFree
      (l.linkPreimages top ++ k.paths.flatMap Path.linkPreimages)) :
    (k.authenticated l.algorithm.digest trusted).TrueOf l top := by
  refine Authenticated.learnAll_induct _
    (Authenticated.TrueOf.start fun n hash h => anchored.root h) fun p hp n e he a ha => ?_
  obtain ⟨hmem, hpasses⟩ := mem_verifiedPaths.1 hp
  refine ha.learnEntry linked (checkPath_eq_ok_iff.1 hpasses).1 (free.subset ?_) he
  refine List.append_subset.2 ⟨List.subset_append_left _ _, fun b hb => ?_⟩
  exact List.mem_append_right _ (List.mem_flatMap.2 ⟨p, hmem, hb⟩)

theorem row_true {a : Authenticated} (htrue : a.TrueOf l top) {finding : Finding} {n : Nat}
    {row : Row} (hpass : (rowFailure? H a finding n row).isNone) :
    (1 ≤ n ∧ n ≤ top) ∧ l.inputHash n = .ok (row.hash H) := by
  have hinput := rowFailure?_eq_none_iff.1 (Option.isNone_iff_eq_none.1 hpass)
  obtain ⟨hpos, htop, hledger⟩ := htrue.inputs _ _ hinput
  exact ⟨⟨Nat.pos_of_ne_zero hpos, htop⟩, hledger⟩

theorem attestation_true {a : Authenticated} (htrue : a.TrueOf l top) {t : RowAttestation}
    (hpass : (attestationFailure? a t).isNone) :
    (1 ≤ t.row ∧ t.row ≤ top) ∧ l.rowHash t.row = .ok t.attestation.state := by
  have hhash := attestationFailure?_eq_none_iff.1 (Option.isNone_iff_eq_none.1 hpass)
  obtain ⟨hpos, htop, hledger⟩ := htrue.hashes _ _ hhash
  exact ⟨⟨Nat.pos_of_ne_zero hpos, htop⟩, hledger⟩

end Package

/-- Every row and every attestation that a report counts as verified is the ledger's, whatever else
the morsel claims, provided that authentication starts from a hash of the ledger. -/
theorem Verifier.counted_true (v : Verifier) {m : Morsel} {whole : Report}
    (hwhole : v.verify m = some whole) {k : Package} (hk : k ∈ m.ledgers) {l : Ledger}
    (reachable : l.Reachable) (halgorithm : l.algorithm = m.algorithm) {top : Nat}
    (anchored : k.Anchored m.algorithm.digest (v.trusted? k.name) l top)
    (free : m.algorithm.digest.CollisionFree
      (l.linkPreimages top ++ k.paths.flatMap Path.linkPreimages)) :
    let H := m.algorithm.digest
    let a := k.authenticated H (v.trusted? k.name)
    ∃ report ∈ whole.ledgers, k.verify H (v.trusted? k.name) = some report ∧
      (report.sourceRowsVerified = (k.provenSourceRows H a).length ∧
        ∀ r ∈ k.provenSourceRows H a,
          (1 ≤ r.row ∧ r.row ≤ top) ∧ l.inputHash r.row = .ok (r.cells.hash H)) ∧
      (report.textRowsVerified = (k.provenTextRows H a).length ∧
        ∀ r ∈ k.provenTextRows H a,
          (1 ≤ r.1 ∧ r.1 ≤ top) ∧ l.inputHash r.1 = .ok (r.2.hash H)) ∧
      (report.attestationsVerified = (k.provenAttestations a).length ∧
        ∀ t ∈ k.provenAttestations a,
          (1 ≤ t.row ∧ t.row ≤ top) ∧ l.rowHash t.row = .ok t.attestation.state) := by
  intro H a
  have htrue : a.TrueOf l top := by
    simp only [a, H]
    rw [← halgorithm] at anchored free ⊢
    exact anchored.authenticated_trueOf reachable.linked free
  obtain ⟨report, hmem, hreport⟩ := exists_report hwhole hk
  obtain ⟨hsource, htext, hattested⟩ := Package.verify_counters hreport
  refine ⟨report, hmem, hreport, ⟨hsource, fun r hr => ?_⟩, ⟨htext, fun r hr => ?_⟩,
    ⟨hattested, fun t ht => ?_⟩⟩
  · exact Package.row_true htrue (List.mem_filter.1 hr).2
  · exact Package.row_true htrue (List.mem_filter.1 hr).2
  · exact Package.attestation_true htrue (List.mem_filter.1 ht).2

def bootRow : Row := ⟨[.ofString "boot"]⟩

def bootLedger : Ledger := .ofInputs .sha256 [bootRow.hash Sha256.hash]

def forgedInput : Digest := .filled 9

def forgedOnTop : Path where
  low := 0
  high := 2
  targets := .empty
  entries := .ofList [(1, ⟨bootLedger.hashBelow 1, some (bootRow.hash Sha256.hash)⟩),
    (2, ⟨bootLedger.algorithm.digest.link forgedInput [bootLedger.hashBelow 1, .sentinel],
      some forgedInput⟩)]
  faultless := by decide

def forgedInstead : Path where
  low := 0
  high := 1
  targets := .empty
  entries := .ofList
    [(1, ⟨bootLedger.algorithm.digest.link forgedInput [.sentinel], some forgedInput⟩)]
  faultless := by decide

def forgedPackage : Package where
  info := { LedgerInfo.new .log "log" with parsing := some .lines }
  paths := [forgedInstead, forgedOnTop]
  sourceRows := [⟨2, bootRow⟩, ⟨1, bootRow⟩]
  rawText := some ⟨1, [98, 111, 111, 116, 10]⟩
  attestations := [⟨1, ⟨bootLedger.hashBelow 1, 0, []⟩⟩]

theorem counted_true_forgedPackage :
    (∃ report, forgedPackage.verify Sha256.hash (some ⟨1, bootLedger.hashBelow 1⟩) = some report ∧
        report.isValid = false ∧ report.sourceRowsVerified = 1) ∧
      bootLedger.inputHash 1 = .ok (bootRow.hash Sha256.hash) := by
  let trusted : TrustedRow := ⟨1, bootLedger.hashBelow 1⟩
  let v := Verifier.new.trust "log" trusted
  let m : Morsel := ⟨.sha256, none, none, [forgedPackage]⟩
  have evaluated : (forgedPackage.verify Sha256.hash (some trusted)).any
        (fun report => !report.isValid && report.sourceRowsVerified = 1) ∧
      (v.verify m).isSome ∧
      ⟨1, bootRow⟩ ∈ forgedPackage.provenSourceRows Sha256.hash
        (forgedPackage.authenticated Sha256.hash (some trusted)) ∧
      Hash.CollisionFree Sha256.hash
        (bootLedger.linkPreimages 1 ++ forgedPackage.paths.flatMap Path.linkPreimages) := by
    decide +kernel
  obtain ⟨hcounted, hsome, hproven, free⟩ := evaluated
  obtain ⟨whole, hwhole⟩ := Option.isSome_iff_exists.1 hsome
  obtain ⟨report, hreport, hfound⟩ := (Option.any_eq_true _ _).1 hcounted
  rw [Bool.and_eq_true, Bool.not_eq_true', decide_eq_true_eq] at hfound
  have anchored : forgedPackage.Anchored Sha256.hash (some trusted) bootLedger 1 :=
    .inl ⟨trusted, rfl, rfl, Nat.le_refl 1, Ledger.rowHash_eq_hashBelow (by decide +kernel)⟩
  obtain ⟨_, -, -, counted, -⟩ := v.counted_true hwhole (List.mem_cons_self (a := forgedPackage))
    (.append _ (.new .sha256)) rfl anchored free
  exact ⟨⟨report, hreport, hfound⟩, (counted.2 _ hproven).2⟩

end SkipChain
