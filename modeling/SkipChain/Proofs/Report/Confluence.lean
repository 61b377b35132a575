import SkipChain.Proofs.Ascending
import SkipChain.Proofs.Report.Authenticity
import SkipChain.Proofs.Report.Closure
import SkipChain.Proofs.Skip
/-!
What is authenticated from a trusted row does not depend on the order of the paths, and more paths
authenticate no less, though forged paths may disagree with each other. Links are nested, so of all
rows that link to a row and lie at or below the trusted one, the highest is known first; the row
gets its hash from that one, and a hash settles what its row links to.
-/
namespace SkipChain

namespace Path

theorem hash?_zero (p : Path) : p.hash? 0 = none := by
  rw [hash?, Option.map_eq_none_iff, Option.eq_none_iff_forall_ne_some]
  exact fun e he => (entry_bounds he).1 rfl

variable {H : Hash} {p q : Path} {n : Nat} {e e' : PathEntry} {input input' : Digest}

theorem LinksHold.agree (hp : p.LinksHold H) (hq : q.LinksHold H)
    (free : H.CollisionFree (p.linkPreimages ++ q.linkPreimages)) (he : p.entry? n = some e)
    (he' : q.entry? n = some e') (hinput : e.input = some input) (hinput' : e'.input = some input')
    (hhash : e.hash = e'.hash) :
    input = input' ∧ ∀ r ∈ Skip.references n, p.hash? r = q.hash? r := by
  obtain ⟨hpresent, hlink⟩ := hp n e input he hinput
  obtain ⟨hpresent', hlink'⟩ := hq n e' input' he' hinput'
  have hsame := free _ (List.mem_append_left _ (mem_linkPreimages he hinput hpresent))
    _ (List.mem_append_right _ (mem_linkPreimages he' hinput' hpresent'))
    (hlink.trans (hhash.trans hlink'.symm))
  obtain ⟨hinputs, hreferences⟩ := linkPreimage_injective hsame
  refine ⟨hinputs, fun r hr => ?_⟩
  by_cases h0 : r = 0
  · rw [h0, hash?_zero, hash?_zero]
  · obtain ⟨f, hf⟩ := contains_iff.1 (hpresent r hr h0)
    obtain ⟨f', hf'⟩ := contains_iff.1 (hpresent' r hr h0)
    have hagree := List.map_inj_left.1 hreferences r hr
    rw [referenceHash, referenceHash, if_neg h0, if_neg h0, hash?_of_entry hf, hash?_of_entry hf',
      Option.getD_some, Option.getD_some] at hagree
    rw [hash?_of_entry hf, hash?_of_entry hf', hagree]

end Path

namespace Authenticated

variable {H : Hash} {a b : Authenticated} {p : Path} {n r : Nat} {e : PathEntry}
  {paths more : List Path} {root : Nat × Digest}

theorem hashes_learnHash (p : Path) (a : Authenticated) (n r : Nat) :
    (learnHash p a n).hashes.get? r =
      (a.hashes.get? r).or (if r = n then p.hash? r else none) := by
  by_cases hr : r = n
  · subst hr
    unfold learnHash
    split
    · next hold =>
      rcases hold with rfl | hold
      · rw [Path.hash?_zero, ite_self, Option.or_none]
      · obtain ⟨hash, hget⟩ := NatMap.contains_iff.1 hold
        rw [hget, Option.some_or]
    · next hnew =>
      have hnone : a.hashes.get? r = none := by
        rw [Option.eq_none_iff_forall_ne_some]
        exact fun hash hget => hnew (.inr (NatMap.contains_iff.2 ⟨hash, hget⟩))
      cases hhash : p.hash? r with
      | none => simp [hnone]
      | some hash => simp [hnone, NatMap.get?_insert]
  · rw [if_neg hr, Option.or_none]
    refine learnHash_induct (P := fun b => b.hashes.get? r = a.hashes.get? r) rfl ?_
    intro hash _ _
    exact (NatMap.get?_insert ..).trans (if_neg hr)

theorem hashes_foldl_learnHash (p : Path) (rows : List Nat) (a : Authenticated) (r : Nat) :
    (rows.foldl (learnHash p) a).hashes.get? r =
      (a.hashes.get? r).or (if r ∈ rows then p.hash? r else none) := by
  induction rows generalizing a with
  | nil => simp
  | cons n rows ih =>
    rw [List.foldl_cons, ih, hashes_learnHash, Option.or_assoc]
    by_cases hr : r = n
    · cases p.hash? r <;> simp [hr.symm]
    · simp [hr]

theorem inputs_foldl_learnHash (p : Path) (rows : List Nat) (a : Authenticated) :
    (rows.foldl (learnHash p) a).inputs = a.inputs := by
  induction rows generalizing a with
  | nil => rfl
  | cons n rows ih =>
    have hfirst : (learnHash p a n).inputs = a.inputs :=
      learnHash_induct (P := fun b => b.inputs = a.inputs) rfl fun _ _ _ => rfl
    rw [List.foldl_cons, ih, hfirst]

/-- What is learned from a row that is expanded with its known hash: its input hash, and the hashes
of the rows it links to as far as they are not known. -/
structure Learns (p : Path) (n : Nat) (input : Digest) (a b : Authenticated) : Prop where
  grows : a.Grows b
  expands : a.Expands p n input
  inputs : b.inputs = a.inputs.insert n input
  hashes : ∀ r, b.hashes.get? r =
    (a.hashes.get? r).or (if r ∈ Skip.references n then p.hash? r else none)

theorem learnEntry_cases (he : p.entry? n = some e) :
    learnEntry p a n e = a ∨ ∃ input, Learns p n input a (learnEntry p a n e) := by
  have hgrows := learnEntry_grows p a n e
  unfold learnEntry at hgrows ⊢
  cases hinput : e.input with
  | none => exact .inl rfl
  | some input =>
    by_cases hknown : a.hashes.get? n = some e.hash
    · simp only [hinput, hknown, if_true] at hgrows ⊢
      exact .inr ⟨input, hgrows, ⟨e, he, hinput, hknown⟩, inputs_foldl_learnHash ..,
        hashes_foldl_learnHash p _ _⟩
    · exact .inl (if_neg hknown)

namespace Learns

variable {input hash : Digest}

theorem known (h : Learns p n input a b) : a.hashes.contains n := h.expands.known

theorem old_or_new (h : Learns p n input a b) (hget : b.hashes.get? r = some hash) :
    a.hashes.get? r = some hash ∨
      ¬a.hashes.contains r ∧ r ∈ Skip.references n ∧ p.hash? r = some hash := by
  rw [h.hashes] at hget
  cases hold : a.hashes.get? r with
  | some found =>
    rw [hold, Option.some_or] at hget
    exact .inl hget
  | none =>
    rw [hold, Option.none_or] at hget
    split at hget
    · next hr => exact .inr ⟨by simp [NatMap.contains, hold], hr, hget⟩
    · cases hget

theorem contains_old_or_new (h : Learns p n input a b) (hr : b.hashes.contains r) :
    a.hashes.contains r ∨ r ∈ Skip.references n := by
  obtain ⟨hash, hget⟩ := NatMap.contains_iff.1 hr
  rcases h.old_or_new hget with hold | ⟨-, hlink, -⟩
  · exact .inl (NatMap.contains_iff.2 ⟨hash, hold⟩)
  · exact .inr hlink

theorem contains_of_known (h : Learns p n input a b) (hr : a.hashes.contains r) :
    b.hashes.contains r := by
  obtain ⟨hash, hget⟩ := NatMap.contains_iff.1 hr
  exact NatMap.contains_iff.2 ⟨hash, h.grows.hashes r hash hget⟩

theorem contains_of_link (h : Learns p n input a b) (links : p.LinksHold H)
    (hr : r ∈ Skip.references n) (h0 : r ≠ 0) : b.hashes.contains r := by
  obtain ⟨e, he, hinput, -⟩ := h.expands
  obtain ⟨f, hf⟩ := Path.contains_iff.1 ((links n e input he hinput).1 r hr h0)
  rw [NatMap.contains, h.hashes, if_pos hr, Path.hash?_of_entry hf]
  cases a.hashes.get? r <;> rfl

end Learns

def HighestLink (top n r : Nat) : Prop :=
  n ≤ top ∧ r ∈ Skip.references n ∧ ∀ m ≤ top, r ∈ Skip.references m → m ≤ n

/-- How what is known came to be known. A row below the root has its hash from the highest row that
links to it; for where a link passes over a known row, the link's end is known too. -/
structure Traced (root : Nat × Digest) (paths : List Path) (a : Authenticated) : Prop where
  known_root : a.hashes.get? root.1 = some root.2
  le_root : ∀ n, a.hashes.contains n → n ≤ root.1
  passed : ∀ n ≤ root.1, ∀ r ∈ Skip.references n, r ≠ 0 → ∀ m, r < m → m < n →
    a.hashes.contains m → a.hashes.contains r
  source : ∀ r hash, a.hashes.get? r = some hash → r ≠ root.1 →
    ∃ n input, HighestLink root.1 n r ∧ ∃ p ∈ paths, a.Expands p n input ∧ p.hash? r = some hash
  inputs : ∀ n input, a.inputs.get? n = some input → ∃ p ∈ paths, a.Expands p n input

theorem Traced.start (root : Nat × Digest) (paths : List Path) :
    (Authenticated.start (some root)).Traced root paths := by
  have honly {n : Nat} {hash : Digest}
      (h : (Authenticated.start (some root)).hashes.get? n = some hash) : root.1 = n := by
    rw [Option.some.inj (get?_start.1 h)]
  have hcontains {n : Nat} (h : (Authenticated.start (some root)).hashes.contains n) :
      root.1 = n := by
    obtain ⟨hash, hget⟩ := NatMap.contains_iff.1 h
    exact honly hget
  refine ⟨get?_start.2 rfl, fun n hn => Nat.le_of_eq (hcontains hn).symm, ?_,
    fun r hash hget hne => absurd (honly hget).symm hne, fun n input hget => by cases hget⟩
  intro n hn r _ _ m _ hm hknown
  have := hcontains hknown
  omega

theorem Traced.learns {input : Digest} (h : a.Traced root paths) (hp : p ∈ paths)
    (links : p.LinksHold H) (hlearns : Learns p n input a b) : b.Traced root paths := by
  have hn : n ≤ root.1 := h.le_root n hlearns.known
  refine ⟨hlearns.grows.hashes _ _ h.known_root, fun r hr => ?_, ?_, ?_, ?_⟩
  · rcases hlearns.contains_old_or_new hr with hold | hlink
    · exact h.le_root r hold
    · have := Skip.lt_of_mem_references hlink
      omega
  · intro k hk r hr h0 m hrm hmk hm
    rcases hlearns.contains_old_or_new hm with hold | hlink
    · exact hlearns.contains_of_known (h.passed k hk r hr h0 m hrm hmk hold)
    · -- row `n` links to `m`, and row `k` passes over `m`
      have hmn := Skip.lt_of_mem_references hlink
      rcases Nat.lt_trichotomy n k with hnk | rfl | hkn
      · exact hlearns.contains_of_known (h.passed k hk r hr h0 n (by omega) hnk hlearns.known)
      · exact hlearns.contains_of_link links hr h0
      · have := Skip.le_of_passed_over hlink hr hmk hkn
        omega
  · intro r hash hget hne
    rcases hlearns.old_or_new hget with hold | ⟨hnew, hlink, hhash⟩
    · obtain ⟨k, found, hhighest, q, hq, hexpands, hqhash⟩ := h.source r hash hold hne
      exact ⟨k, found, hhighest, q, hq, hexpands.grows hlearns.grows, hqhash⟩
    · refine ⟨n, input, ⟨hn, hlink, fun k hk hr => ?_⟩, p, hp, hlearns.expands.grows hlearns.grows,
        hhash⟩
      -- a higher row with a link to `r` passes over row `n`, so `r` would not be new
      by_contra hnk
      obtain ⟨f, hf, -⟩ := Path.hash?_eq_some_iff.1 hhash
      exact hnew (h.passed k hk r hr (Path.entry_bounds hf).1 n (Skip.lt_of_mem_references hlink)
        (Nat.not_le.1 hnk) hlearns.known)
  · intro k found hget
    rw [hlearns.inputs, NatMap.get?_insert] at hget
    split at hget
    · next hk =>
      rw [hk, ← Option.some.inj hget]
      exact ⟨p, hp, hlearns.expands.grows hlearns.grows⟩
    · obtain ⟨q, hq, hexpands⟩ := h.inputs k found hget
      exact ⟨q, hq, hexpands.grows hlearns.grows⟩

theorem ofPaths_traced (root : Nat × Digest) (links : ∀ p ∈ paths, p.LinksHold H) :
    (ofPaths (some root) paths).Traced root paths := by
  refine learnAll_induct _ (.start root paths) fun p hp n e he a ha => ?_
  rcases learnEntry_cases (a := a) he with hsame | ⟨input, hlearns⟩
  · rwa [hsame]
  · exact ha.learns hp (links p hp) hlearns

theorem Expands.agree {q : Path} {input input' : Digest} (h : a.Expands p n input)
    (h' : a.Expands q n input') (hp : p.LinksHold H) (hq : q.LinksHold H)
    (free : H.CollisionFree (p.linkPreimages ++ q.linkPreimages)) :
    input = input' ∧ ∀ r ∈ Skip.references n, p.hash? r = q.hash? r := by
  obtain ⟨e, he, hinput, hknown⟩ := h
  obtain ⟨e', he', hinput', hknown'⟩ := h'
  rw [hknown] at hknown'
  exact hp.agree hq free he he' hinput hinput' (Option.some.inj hknown')

structure Le (a b : Authenticated) : Prop where
  hashes : ∀ n hash, a.hashes.get? n = some hash → b.hashes.get? n = some hash
  inputs : ∀ n input, a.inputs.get? n = some input → b.inputs.get? n = some input

theorem Le.antisymm (h : a.Le b) (h' : b.Le a) : a = b := by
  have hhashes : a.hashes = b.hashes := NatMap.ext_get? fun n =>
    Option.ext fun hash => ⟨h.hashes n hash, h'.hashes n hash⟩
  have hinputs : a.inputs = b.inputs := NatMap.ext_get? fun n =>
    Option.ext fun input => ⟨h.inputs n input, h'.inputs n input⟩
  cases a
  cases b
  cases hhashes
  cases hinputs
  rfl

section More

variable (subset : paths ⊆ more) (links : ∀ p ∈ more, p.LinksHold H)
  (free : H.CollisionFree (more.flatMap Path.linkPreimages))

include free in
theorem free_of_mem {q : Path} (hp : p ∈ more) (hq : q ∈ more) :
    H.CollisionFree (p.linkPreimages ++ q.linkPreimages) := by
  refine free.subset (List.append_subset.2 ⟨fun x hx => ?_, fun x hx => ?_⟩)
  · exact List.mem_flatMap.2 ⟨p, hp, hx⟩
  · exact List.mem_flatMap.2 ⟨q, hq, hx⟩

include subset links free in
/-- What is known from some paths is known from more. The induction goes down from the root: with
either paths a row has its hash from the highest row that links to it. -/
theorem Traced.hashes_le (h : a.Traced root paths) (h' : b.Traced root more)
    (closed : b.Closed more) (r : Nat) (hash : Digest) (hget : a.hashes.get? r = some hash) :
    b.hashes.get? r = some hash := by
  induction hd : root.1 - r using Nat.strongRecOn generalizing r hash with
  | ind d ih =>
    by_cases hroot : r = root.1
    · rw [hroot, h.known_root] at hget
      rw [hroot, h'.known_root, hget]
    · obtain ⟨n, input, ⟨hn, hlink, hhighest⟩, p, hp, ⟨e, he, hinput, hknown⟩, hhash⟩ :=
        h.source r hash hget hroot
      have hlt := Skip.lt_of_mem_references hlink
      have hexpands : b.Expands p n input :=
        ⟨e, he, hinput, ih (root.1 - n) (by omega) n e.hash hknown rfl⟩
      have hcontains := (hexpands.settled (subset hp) closed).links r hlink
        (Path.contains_of_hash? hhash)
      obtain ⟨hash', hget'⟩ := NatMap.contains_iff.1 hcontains
      obtain ⟨m, input', ⟨hm, hlink', hhighest'⟩, q, hq, hexpands', hhash'⟩ :=
        h'.source r hash' hget' hroot
      obtain rfl : n = m := Nat.le_antisymm (hhighest' n hn hlink) (hhighest m hm hlink')
      obtain ⟨-, hagree⟩ := hexpands.agree hexpands' (links p (subset hp)) (links q hq)
        (free_of_mem free (subset hp) hq)
      rw [hget', ← hhash', ← hagree r hlink, hhash]

include subset links free in
theorem Traced.le (h : a.Traced root paths) (h' : b.Traced root more) (closed : b.Closed more) :
    a.Le b := by
  have hhashes := h.hashes_le subset links free h' closed
  refine ⟨hhashes, fun n input hget => ?_⟩
  obtain ⟨p, hp, e, he, hinput, hknown⟩ := h.inputs n input hget
  have hexpands : b.Expands p n input := ⟨e, he, hinput, hhashes n e.hash hknown⟩
  obtain ⟨input', hget'⟩ := NatMap.mem_keys.1 (hexpands.settled (subset hp) closed).input
  obtain ⟨q, hq, hexpands'⟩ := h'.inputs n input' hget'
  obtain ⟨rfl, -⟩ := hexpands.agree hexpands' (links p (subset hp)) (links q hq)
    (free_of_mem free (subset hp) hq)
  exact hget'

include subset links free in
theorem ofPaths_le (root : Nat × Digest) :
    (ofPaths (some root) paths).Le (ofPaths (some root) more) :=
  (ofPaths_traced root fun p hp => links p (subset hp)).le subset links free
    (ofPaths_traced root links) (ofPaths_closed _ _)

end More

end Authenticated

namespace Package

variable {H : Hash} {t : TrustedRow} {k k' : Package}

theorem authenticated_le (hpaths : k.paths ⊆ k'.paths)
    (free : H.CollisionFree (k'.paths.flatMap Path.linkPreimages)) :
    (k.authenticated H (some t)).Le (k'.authenticated H (some t)) := by
  apply Authenticated.ofPaths_le (H := H)
  · intro p hp
    obtain ⟨hmem, hpasses⟩ := mem_verifiedPaths.1 hp
    exact mem_verifiedPaths.2 ⟨hpaths hmem, hpasses⟩
  · exact fun p hp => (checkPath_eq_ok_iff.1 (mem_verifiedPaths.1 hp).2).1
  · refine free.subset fun x hx => ?_
    obtain ⟨p, hp, hx⟩ := List.mem_flatMap.1 hx
    exact List.mem_flatMap.2 ⟨p, (mem_verifiedPaths.1 hp).1, hx⟩

structure Reordered (k k' : Package) : Prop where
  info : k'.info = k.info
  rawText : k'.rawText = k.rawText
  paths : k'.paths.Perm k.paths
  sourceRows : k'.sourceRows.Perm k.sourceRows
  attestations : k'.attestations.Perm k.attestations

theorem Reordered.authenticated_eq (h : k.Reordered k')
    (free : H.CollisionFree (k.paths.flatMap Path.linkPreimages)) :
    k'.authenticated H (some t) = k.authenticated H (some t) := by
  have free' : H.CollisionFree (k'.paths.flatMap Path.linkPreimages) :=
    free.subset (h.paths.flatMap_right _).subset
  exact (authenticated_le h.paths.subset free).antisymm
    (authenticated_le h.paths.symm.subset free')

theorem Reordered.textRowChecks_eq (h : k.Reordered k') (a : Authenticated) :
    k'.textRowChecks H a = k.textRowChecks H a := by
  unfold textRowChecks
  rw [h.info, h.rawText]

theorem Reordered.untrustedFailure?_eq (h : k.Reordered k') :
    k'.untrustedFailure? (some t) = k.untrustedFailure? (some t) := by
  unfold untrustedFailure?
  simp only [h.paths.any_eq]

theorem Reordered.failures_perm (h : k.Reordered k') (a : Authenticated)
    (checks : List (Option Failure)) :
    (k'.report H (some t) a checks).failures.Perm (k.report H (some t) a checks).failures := by
  have hverified : (k'.verifiedPaths H (some t)).Perm (k.verifiedPaths H (some t)) :=
    h.paths.filter _
  have hfound {α : Type} {xs ys : List α} (hperm : xs.Perm ys) (check : α → Option Failure) :
      (xs.map check).reduceOption.Perm (ys.map check).reduceOption := (hperm.map check).filterMap id
  simp only [report, h.untrustedFailure?_eq]
  apply List.Perm.append _ (hfound h.attestations _)
  apply List.Perm.append_right
  apply List.Perm.append _ (hfound h.sourceRows _)
  apply List.Perm.append _ (hverified.flatMap_right _)
  exact (hfound h.paths _).append_right _

theorem Reordered.isValid_eq (h : k.Reordered k') (a : Authenticated)
    (checks : List (Option Failure)) :
    (k'.report H (some t) a checks).isValid = (k.report H (some t) a checks).isValid := by
  have hperm := h.failures_perm (H := H) (t := t) a checks
  rw [LedgerReport.isValid, LedgerReport.isValid, Bool.eq_iff_iff, List.isEmpty_iff,
    List.isEmpty_iff]
  constructor
  · intro hnil
    rw [hnil] at hperm
    exact hperm.nil_eq.symm
  · intro hnil
    rw [hnil] at hperm
    exact hperm.eq_nil

theorem Reordered.counters_eq (h : k.Reordered k') (a : Authenticated)
    (checks : List (Option Failure)) :
    let report := k.report H (some t) a checks
    let report' := k'.report H (some t) a checks
    report'.pathsVerified = report.pathsVerified ∧
      report'.sourceRowsVerified = report.sourceRowsVerified ∧
      report'.textRowsVerified = report.textRowsVerified ∧
      report'.attestationsVerified = report.attestationsVerified :=
  ⟨(h.paths.map _).countP_eq _, (h.sourceRows.map _).countP_eq _, rfl,
    (h.attestations.map _).countP_eq _⟩

theorem Reordered.verify_eq (h : k.Reordered k')
    (free : H.CollisionFree (k.paths.flatMap Path.linkPreimages)) :
    k'.verify H (some t) = (k.textRowChecks H (k.authenticated H (some t))).map
      (k'.report H (some t) (k.authenticated H (some t))) := by
  rw [verify, h.authenticated_eq free, h.textRowChecks_eq]

theorem passed_map_le {α : Type} {check check' : α → Option Failure} {xs : List α}
    (h : ∀ x, check x = none → check' x = none) :
    passed (xs.map check) ≤ passed (xs.map check') := by
  rw [passed_map, passed_map, ← List.countP_eq_length_filter, ← List.countP_eq_length_filter]
  apply List.countP_mono_left
  intro x _ hx
  rw [Option.isNone_iff_eq_none] at hx ⊢
  exact h x hx

theorem rowFailure?_le {a b : Authenticated} (h : a.Le b) {finding : Finding} {n : Nat} {row : Row}
    (hpass : rowFailure? H a finding n row = none) : rowFailure? H b finding n row = none :=
  rowFailure?_eq_none_iff.2 (h.inputs _ _ (rowFailure?_eq_none_iff.1 hpass))

theorem attestationFailure?_le {a b : Authenticated} (h : a.Le b) {x : RowAttestation}
    (hpass : attestationFailure? a x = none) : attestationFailure? b x = none :=
  attestationFailure?_eq_none_iff.2 (h.hashes _ _ (attestationFailure?_eq_none_iff.1 hpass))

theorem textRowChecks_le {a b : Authenticated} (h : a.Le b) {checks : List (Option Failure)}
    (hchecks : k.textRowChecks H a = some checks) :
    ∃ more, k.textRowChecks H b = some more ∧ passed checks ≤ passed more := by
  have hfits : k.NumbersFit := by
    by_contra hnot
    rw [textRowChecks_eq_none_iff.2 hnot] at hchecks
    cases hchecks
  obtain ⟨more, hmore⟩ := Option.ne_none_iff_exists'.1 fun hnone =>
    textRowChecks_eq_none_iff.1 hnone hfits
  refine ⟨more, hmore, ?_⟩
  rw [passed_textRowChecks hchecks, passed_textRowChecks hmore, provenTextRows, provenTextRows,
    ← passed_map, ← passed_map]
  exact passed_map_le fun r => rowFailure?_le h

/-- With a trusted row, what is found in a package does not depend on the order of its paths, rows
shown and attestations, and further paths, forged ones among them, take nothing from what is counted
as verified; no two links that the paths record may collide. Nor does it depend on them whether there
is a report. -/
theorem verify_reordered (H : Hash) (t : TrustedRow) (h : k.Reordered k')
    (free : H.CollisionFree (k.paths.flatMap Path.linkPreimages)) :
    (k'.verify H (some t) = none ↔ k.verify H (some t) = none) ∧
    ∀ report, k.verify H (some t) = some report →
      (∃ report', k'.verify H (some t) = some report' ∧
        report'.isValid = report.isValid ∧ report'.failures.Perm report.failures ∧
        report'.pathsVerified = report.pathsVerified ∧
        report'.sourceRowsVerified = report.sourceRowsVerified ∧
        report'.textRowsVerified = report.textRowsVerified ∧
        report'.attestationsVerified = report.attestationsVerified) ∧
      ∀ paths, k.paths ⊆ paths → H.CollisionFree (paths.flatMap Path.linkPreimages) →
        ∃ extended, { k with paths }.verify H (some t) = some extended ∧
          report.sourceRowsVerified ≤ extended.sourceRowsVerified ∧
          report.textRowsVerified ≤ extended.textRowsVerified ∧
          report.attestationsVerified ≤ extended.attestationsVerified := by
  refine ⟨?_, fun report hreport => ?_⟩
  · rw [h.verify_eq free, verify, Option.map_eq_none_iff, Option.map_eq_none_iff]
  obtain ⟨checks, hchecks, rfl⟩ := verify_eq_some_iff.1 hreport
  refine ⟨⟨_, ?_, h.isValid_eq _ _, h.failures_perm _ _, h.counters_eq _ _⟩, ?_⟩
  · rw [h.verify_eq free, hchecks, Option.map_some]
  · intro paths hpaths hfree
    have hle : (k.authenticated H (some t)).Le ({ k with paths }.authenticated H (some t)) :=
      authenticated_le hpaths hfree
    obtain ⟨more, hmore, htext⟩ := textRowChecks_le hle hchecks
    exact ⟨_, verify_eq_some_iff.2 ⟨more, hmore, rfl⟩, passed_map_le fun r => rowFailure?_le hle,
      htext, passed_map_le fun x => attestationFailure?_le hle⟩

def twiceBooted : Ledger := .ofInputs .sha256 [bootRow.hash Sha256.hash, bootRow.hash Sha256.hash]

def lowerBoot : Path where
  low := 0
  high := 1
  targets := .empty
  entries := .ofList [(1, ⟨twiceBooted.hashBelow 1, some (bootRow.hash Sha256.hash)⟩)]
  faultless := by decide

def upperBoot : Path where
  low := 1
  high := 2
  targets := .empty
  entries := .ofList [(1, ⟨twiceBooted.hashBelow 1, none⟩),
    (2, ⟨twiceBooted.hashBelow 2, some (bootRow.hash Sha256.hash)⟩)]
  faultless := by decide

/-- In this order row 1 is known only after a second pass, and a forged row 1 comes first. -/
def scrambled : Package where
  info := .new .log "log"
  paths := [forgedInstead, lowerBoot, upperBoot]
  sourceRows := [⟨4, bootRow⟩, ⟨2, bootRow⟩, ⟨3, bootRow⟩, ⟨1, bootRow⟩]
  rawText := none
  attestations := [⟨1, ⟨twiceBooted.hashBelow 1, 0, []⟩⟩]

def unscrambled : Package :=
  { scrambled with
    paths := [upperBoot, lowerBoot, forgedInstead]
    sourceRows := [⟨1, bootRow⟩, ⟨2, bootRow⟩, ⟨3, bootRow⟩, ⟨4, bootRow⟩] }

theorem verify_reordered_scrambled :
    let t : TrustedRow := ⟨2, twiceBooted.hashBelow 2⟩
    ∃ report report' extended, scrambled.verify Sha256.hash (some t) = some report ∧
      unscrambled.verify Sha256.hash (some t) = some report' ∧
      { scrambled with paths := forgedOnTop :: scrambled.paths }.verify Sha256.hash (some t) =
        some extended ∧
      (report.sourceRowsVerified = 2 ∧ report'.failures ≠ report.failures) ∧
      (report'.failures.Perm report.failures ∧ report'.sourceRowsVerified = 2) ∧
      2 ≤ extended.sourceRowsVerified := by
  intro t
  have evaluated : (scrambled.verify Sha256.hash (some t)).any (·.sourceRowsVerified = 2) ∧
      (scrambled.verify Sha256.hash (some t)).map LedgerReport.failures ≠
        (unscrambled.verify Sha256.hash (some t)).map LedgerReport.failures ∧
      Hash.CollisionFree Sha256.hash (scrambled.paths.flatMap Path.linkPreimages) ∧
      Hash.CollisionFree Sha256.hash
        ((forgedOnTop :: scrambled.paths).flatMap Path.linkPreimages) := by
    decide +kernel
  obtain ⟨hcounted, hdiffer, hfree, hfree'⟩ := evaluated
  obtain ⟨report, hreport, htwo⟩ := (Option.any_eq_true _ _).1 hcounted
  rw [decide_eq_true_eq] at htwo
  have hreordered : scrambled.Reordered unscrambled :=
    ⟨rfl, rfl, by decide +kernel, by decide +kernel, .refl _⟩
  obtain ⟨⟨report', hreport', -, hperm, -, hrows, -⟩, hmore⟩ :=
    (verify_reordered Sha256.hash t hreordered hfree).2 report hreport
  obtain ⟨extended, hextended, hsource, -⟩ := hmore _ (List.subset_cons_self forgedOnTop _) hfree'
  rw [hreport, hreport', Option.map_some, Option.map_some] at hdiffer
  exact ⟨report, report', extended, hreport, hreport', hextended,
    ⟨htwo, fun heq => hdiffer (congrArg some heq.symm)⟩, ⟨hperm, hrows.trans htwo⟩,
    htwo ▸ hsource⟩

end Package

end SkipChain
