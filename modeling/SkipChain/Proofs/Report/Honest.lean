import SkipChain.Proofs.Journal.Disclosure
import SkipChain.Proofs.Report.Authenticity
import SkipChain.Proofs.Report.Closure
/-!
Nothing is found wrong with an honest package. Its paths all meet the path over the whole ledger,
from whose last row authentication reaches every row that this path covers.
-/
namespace SkipChain

namespace Authenticated

variable {l : Ledger} {a : Authenticated} {p q : Path} {n : Nat} {e : PathEntry}
  {paths : List Path} {root : Option (Nat × Digest)}

theorem TrueOf.learnEntry_of_confirms {top : Nat} (h : a.TrueOf l top)
    (confirmed : ∀ n e, p.entry? n = some e → l.Confirms n e) (he : p.entry? n = some e) :
    (Authenticated.learnEntry p a n e).TrueOf l top := by
  refine h.learnEntry_of_links fun input hinput _ => ⟨(confirmed n e he).2 input hinput, ?_⟩
  intro r _ hash hfound
  obtain ⟨e', he', rfl⟩ := Path.hash?_eq_some_iff.1 hfound
  exact (confirmed r e' he').1

/-- Down a path whose high row is known every row comes to be known, as the known hash of a row is
the one that the path records. -/
theorem Closed.contains_of_high (closed : a.Closed paths) (hp : p ∈ paths) (rooted : p.Rooted)
    (agrees : ∀ n e hash, p.entry? n = some e → a.hashes.get? n = some hash → hash = e.hash)
    (hhigh : a.hashes.contains p.high) (hn : p.contains n) : a.hashes.contains n := by
  have hreached := rooted.reaches hn
  induction hreached with
  | refl => exact hhigh
  | @tail m n _ step ih =>
    obtain ⟨e, input, he, hinput⟩ := Path.isExpanded_iff.1 step.1
    obtain ⟨hash, hknown⟩ := NatMap.contains_iff.1 (ih (Path.contains_iff.2 ⟨e, he⟩))
    rw [agrees m e hash he hknown] at hknown
    have hexpands : a.Expands p m input := ⟨e, he, hinput, hknown⟩
    exact (hexpands.settled hp closed).links n step.2 hn

end Authenticated

namespace Package

variable {H : Hash} {trusted : Option TrustedRow} {k : Package} {l : Ledger} {n : Nat}

theorem exists_highest {ps : List Path} {p : Path} (h : p ∈ ps) :
    ∃ q, highest ps = some q ∧ ∀ r ∈ ps, r.high ≤ q.high := by
  induction ps generalizing p with
  | nil => cases h
  | cons s ps ih =>
    unfold highest
    cases hrest : highest ps with
    | none =>
      exact ⟨s, rfl, by simp [eq_nil_of_highest hrest]⟩
    | some q =>
      obtain ⟨q', hq', hmax⟩ := ih (highest_mem hrest)
      obtain rfl : q = q' := Option.some.inj (hrest.symm.trans hq')
      by_cases hlt : s.high < q.high
      · refine ⟨q, by simp only [if_pos hlt], fun r hr => ?_⟩
        rcases List.mem_cons.1 hr with rfl | hr
        · omega
        · exact hmax r hr
      · refine ⟨s, by simp only [if_neg hlt], fun r hr => ?_⟩
        rcases List.mem_cons.1 hr with rfl | hr
        · omega
        · have := hmax r hr
          omega

/-- What a journal hands over of its ledger: paths of the ledger, each of which starts where the
ledger starts or ends where it ends, and rows and attestations that the ledger has and a path covers. -/
structure Honest (k : Package) (l : Ledger) : Prop where
  paths : ∀ p ∈ k.paths, ∃ targets low high, l.Built targets low high p
  ends : ∀ p ∈ k.paths, p.low = 0 ∨ p.high = l.size
  whole : ∃ p ∈ k.paths, p.low = 0 ∧ p.high = l.size
  sourceRows : ∀ r ∈ k.sourceRows,
    l.inputHash r.row = .ok (r.cells.hash l.algorithm.digest) ∧ k.Covers l.size r.row
  textRows : ∀ r ∈ k.textRows,
    l.inputHash r.1 = .ok (r.2.hash l.algorithm.digest) ∧ k.Covers l.size r.1
  parses : ∀ text parsing, k.rawText = some text → k.info.parsing = some parsing →
    ∃ rows, parsing.rows text.bytes text.first = some (.ok rows)
  attestations : ∀ t ∈ k.attestations,
    l.rowHash t.row = .ok t.attestation.state ∧ k.Covers l.size t.row

def TrustsState (trusted : Option TrustedRow) (l : Ledger) : Prop :=
  trusted = none ∨ trusted = some ⟨l.size, l.state⟩

namespace Honest

theorem confirms (honest : k.Honest l) {p : Path} (hp : p ∈ k.paths) {e : PathEntry}
    (he : p.entry? n = some e) : l.Confirms n e := by
  obtain ⟨targets, low, high, built⟩ := honest.paths p hp
  exact built.confirms he

theorem exists_first (honest : k.Honest l) {p : Path} (hp : p ∈ k.paths) (hlow : p.low = 0) :
    ∃ e, p.entry? 1 = some e := by
  obtain ⟨targets, low, high, built⟩ := honest.paths p hp
  apply Path.contains_iff.1
  have hpos := built.spans.high_pos
  have hlow' := built.low_eq
  exact built.stop_contained (Ledger.mem_stops.2 (.inl (by omega))) (by omega)

theorem exists_last (honest : k.Honest l) {p : Path} (hp : p ∈ k.paths) :
    ∃ e, p.entry? p.high = some e := by
  obtain ⟨targets, low, high, built⟩ := honest.paths p hp
  apply Path.contains_iff.1
  have hpos := built.spans.high_pos
  exact built.stop_contained (Ledger.mem_stops.2 (.inr (.inl built.high_eq)))
    (by rw [built.high_eq]; omega)

theorem rowHash_size (l : Ledger) : l.rowHash l.size = .ok l.state :=
  Ledger.rowHash_eq_hashBelow (Nat.le_refl _)

theorem checkPath_eq_ok (honest : k.Honest l) (linked : l.Linked) (trusts : TrustsState trusted l)
    {p : Path} (hp : p ∈ k.paths) : checkPath l.algorithm.digest trusted p = .ok () := by
  obtain ⟨targets, low, high, built⟩ := honest.paths p hp
  refine checkPath_eq_ok_iff.2 ⟨built.linksHold linked, built.rooted, fun t ht hcontains => ?_⟩
  rcases trusts with rfl | rfl
  · cases ht
  · cases ht
    obtain ⟨e, he⟩ := Path.contains_iff.1 hcontains
    have hhash := (built.confirms he).1
    rw [rowHash_size] at hhash
    rw [Path.hash?_of_entry he, Except.ok.inj hhash]

theorem verifiedPaths_eq (honest : k.Honest l) (linked : l.Linked)
    (trusts : TrustsState trusted l) : k.verifiedPaths l.algorithm.digest trusted = k.paths := by
  refine List.filter_eq_self.2 fun p hp => ?_
  rw [pathFailure?_eq_none_iff.2 (honest.checkPath_eq_ok linked trusts hp), Option.isNone_none]

/-- Authentication starts from the state: no path goes higher than the ledger. -/
theorem root_eq (honest : k.Honest l) (trusts : TrustsState trusted l) :
    root? trusted k.paths = some (l.size, l.state) := by
  rcases trusts with rfl | rfl
  · obtain ⟨q, hq, hwhole⟩ := honest.whole
    obtain ⟨p, hhighest, hmax⟩ := exists_highest hq
    have hp := highest_mem hhighest
    obtain ⟨targets, low, high, built⟩ := honest.paths p hp
    have hhigh : p.high = l.size := by
      have hle := built.high_le
      rw [← built.high_eq] at hle
      have hge := hmax q hq
      omega
    have hhash := built.highHash_eq
    rw [← built.high_eq, hhigh, rowHash_size] at hhash
    rw [root?, hhighest, Option.map_some, hhigh, ← Except.ok.inj hhash]
  · rfl

theorem size_ne_zero (honest : k.Honest l) : l.size ≠ 0 := by
  obtain ⟨q, _, _, hhigh⟩ := honest.whole
  rw [← hhigh]
  exact (PathParts.fault?_eq_none_iff.1 q.faultless).1.1

theorem trueOf (honest : k.Honest l) (linked : l.Linked) (trusts : TrustsState trusted l) :
    (k.authenticated l.algorithm.digest trusted).TrueOf l l.size := by
  rw [authenticated, honest.verifiedPaths_eq linked trusts, honest.root_eq trusts]
  apply Authenticated.learnAll_induct
  · apply Authenticated.TrueOf.start
    rintro n hash ⟨⟩
    exact ⟨honest.size_ne_zero, Nat.le_refl _, rowHash_size l⟩
  · intro p hp n e he a ha
    exact ha.learnEntry_of_confirms (fun n e he => honest.confirms hp he) he

theorem closed (honest : k.Honest l) (linked : l.Linked) (trusts : TrustsState trusted l) :
    (k.authenticated l.algorithm.digest trusted).Closed k.paths := by
  have hclosed := Authenticated.ofPaths_closed (root? trusted k.paths) k.paths
  rwa [authenticated, honest.verifiedPaths_eq linked trusts]

theorem state_known (honest : k.Honest l) (linked : l.Linked) (trusts : TrustsState trusted l) :
    (k.authenticated l.algorithm.digest trusted).hashes.get? l.size = some l.state := by
  rw [authenticated, honest.verifiedPaths_eq linked trusts]
  exact Authenticated.ofPaths_root (honest.root_eq trusts)

theorem agrees (honest : k.Honest l) (linked : l.Linked) (trusts : TrustsState trusted l)
    {p : Path} (hp : p ∈ k.paths) {e : PathEntry} {hash : Digest} (he : p.entry? n = some e)
    (hknown : (k.authenticated l.algorithm.digest trusted).hashes.get? n = some hash) :
    hash = e.hash := by
  have htrue := ((honest.trueOf linked trusts).hashes n hash hknown).2.2
  rw [(honest.confirms hp he).1] at htrue
  exact (Except.ok.inj htrue).symm

theorem known_of_high (honest : k.Honest l) (linked : l.Linked) (trusts : TrustsState trusted l)
    {p : Path} (hp : p ∈ k.paths) (hhigh : p.high = l.size) {e : PathEntry}
    (he : p.entry? n = some e) :
    (k.authenticated l.algorithm.digest trusted).hashes.get? n = some e.hash := by
  obtain ⟨targets, low, high, built⟩ := honest.paths p hp
  have htop : (k.authenticated l.algorithm.digest trusted).hashes.contains p.high :=
    NatMap.contains_iff.2 ⟨l.state, hhigh ▸ honest.state_known linked trusts⟩
  have hcontains := (honest.closed linked trusts).contains_of_high hp built.rooted
    (fun _ _ _ => honest.agrees linked trusts hp) htop (Path.contains_iff.2 ⟨e, he⟩)
  obtain ⟨hash, hknown⟩ := NatMap.contains_iff.1 hcontains
  rw [hknown, honest.agrees linked trusts hp he hknown]

/-- Row 1 and the last row are where paths meet. -/
theorem linkFailures_eq_nil (honest : k.Honest l) (linked : l.Linked)
    (trusts : TrustsState trusted l) {p : Path} (hp : p ∈ k.paths) :
    linkFailures (k.authenticated l.algorithm.digest trusted) p = [] := by
  refine linkFailures_eq_nil_iff.2
    ⟨fun n e he hash hknown => honest.agrees linked trusts hp he hknown, ?_⟩
  have hmeets : ∃ n e hash, p.entry? n = some e ∧
      (k.authenticated l.algorithm.digest trusted).hashes.get? n = some hash := by
    rcases honest.ends p hp with hlow | hhigh
    · obtain ⟨e, he⟩ := honest.exists_first hp hlow
      obtain ⟨q, hq, hqlow, hqhigh⟩ := honest.whole
      obtain ⟨e', he'⟩ := honest.exists_first hq hqlow
      exact ⟨1, e, e'.hash, he, honest.known_of_high linked trusts hq hqhigh he'⟩
    · obtain ⟨e, he⟩ := honest.exists_last hp
      exact ⟨p.high, e, e.hash, he, honest.known_of_high linked trusts hp hhigh he⟩
  obtain ⟨n, e, hash, he, hknown⟩ := hmeets
  exact ⟨n, e, he, honest.agrees linked trusts hp he hknown ▸ hknown⟩

theorem known_of_covers (honest : k.Honest l) (linked : l.Linked) (trusts : TrustsState trusted l)
    (covers : k.Covers l.size n) :
    (∃ hash, (k.authenticated l.algorithm.digest trusted).hashes.get? n = some hash) ∧
      ∃ input, (k.authenticated l.algorithm.digest trusted).inputs.get? n = some input := by
  obtain ⟨p, hp, ⟨_, hhigh⟩, hexpanded⟩ := covers
  obtain ⟨e, input, he, hinput⟩ := Path.isExpanded_iff.1 hexpanded
  have hknown := honest.known_of_high linked trusts hp hhigh he
  have hexpands : (k.authenticated l.algorithm.digest trusted).Expands p n input :=
    ⟨e, he, hinput, hknown⟩
  have hsettled := hexpands.settled hp (honest.closed linked trusts)
  exact ⟨⟨e.hash, hknown⟩, NatMap.mem_keys.1 hsettled.input⟩

theorem rowFailure?_eq_none (honest : k.Honest l) (linked : l.Linked)
    (trusts : TrustsState trusted l) {row : Row}
    (h : l.inputHash n = .ok (row.hash l.algorithm.digest) ∧ k.Covers l.size n)
    (finding : Finding) :
    rowFailure? l.algorithm.digest (k.authenticated l.algorithm.digest trusted) finding n row =
      none := by
  obtain ⟨input, hinput⟩ := (honest.known_of_covers linked trusts h.2).2
  have htrue := ((honest.trueOf linked trusts).inputs n input hinput).2.2
  rw [h.1] at htrue
  rw [rowFailure?_eq_none_iff, hinput, Except.ok.inj htrue]

theorem attestationFailure?_eq_none (honest : k.Honest l) (linked : l.Linked)
    (trusts : TrustsState trusted l) {t : RowAttestation} (ht : t ∈ k.attestations) :
    attestationFailure? (k.authenticated l.algorithm.digest trusted) t = none := by
  obtain ⟨hstate, hcovers⟩ := honest.attestations t ht
  obtain ⟨hash, hknown⟩ := (honest.known_of_covers linked trusts hcovers).1
  have htrue := ((honest.trueOf linked trusts).hashes t.row hash hknown).2.2
  rw [hstate] at htrue
  rw [attestationFailure?_eq_none_iff, hknown, Except.ok.inj htrue]

theorem textRowChecks_eq (honest : k.Honest l) {a : Authenticated} :
    k.textRowChecks H a = some (k.textRows.map fun r => rowFailure? H a .textRow r.1 r.2) := by
  rcases k.readable_or_unread with ⟨text, parsing, hread⟩ | hunread
  · obtain ⟨rows, hrows⟩ := honest.parses text parsing hread.text hread.parsing
    rw [hread.textRowChecks_eq, hread.textRows_eq, hrows]
    rfl
  · rw [textRowChecks_of_unread hunread, textRows_of_unread hunread, List.map_nil]

theorem report (honest : k.Honest l) (linked : l.Linked) (trusts : TrustsState trusted l) :
    ∃ r, k.verify l.algorithm.digest trusted = some r ∧ r.name = k.name ∧ r.failures = [] ∧
      r.pathsVerified = k.paths.length ∧ r.sourceRowsVerified = k.sourceRows.length ∧
      r.textRowsVerified = k.textRows.length ∧ r.attestationsVerified = k.attestations.length := by
  have hrows (r : SourceRow) (hr : r ∈ k.sourceRows) :=
    honest.rowFailure?_eq_none linked trusts (honest.sourceRows r hr) .sourceRow
  have htexts (r : Nat × Row) (hr : r ∈ k.textRows) :=
    honest.rowFailure?_eq_none linked trusts (honest.textRows r hr) .textRow
  have hattested (t : RowAttestation) (ht : t ∈ k.attestations) :=
    honest.attestationFailure?_eq_none linked trusts ht
  have clean : (k.report l.algorithm.digest trusted (k.authenticated l.algorithm.digest trusted)
      (k.textRows.map fun r => rowFailure? l.algorithm.digest
        (k.authenticated l.algorithm.digest trusted) .textRow r.1 r.2)).failures = [] := by
    refine failures_eq_nil_iff.2 ⟨fun p hp => ?_, ?_, hrows,
      reduceOption_map_eq_nil_iff.2 htexts, hattested⟩
    · exact ⟨honest.checkPath_eq_ok linked trusts hp, honest.linkFailures_eq_nil linked trusts hp⟩
    · rintro t rfl
      obtain ⟨p, hp, _, hhigh⟩ := honest.whole
      rcases trusts with htrusts | htrusts
      · cases htrusts
      · cases htrusts
        exact ⟨p, hp, hhigh ▸ Path.contains_iff.2 (honest.exists_last hp)⟩
  have hreport : k.verify l.algorithm.digest trusted = some _ :=
    verify_eq_some_iff.2 ⟨_, honest.textRowChecks_eq, rfl⟩
  exact ⟨_, hreport, rfl, clean, counters_of_clean hreport clean⟩

end Honest

end Package

end SkipChain
