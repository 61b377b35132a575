import Mathlib.Order.Bounds.Basic
import SkipChain.Proofs.Path.Completeness
/-!
Damage to a path shows where it is. Rows that neither are damaged nor link to the damaged row are
as they were, so the check comes to a stop at the damaged row or at the first row that links to it.
-/
namespace SkipChain

def PathParts.without (parts : PathParts) (row : Nat) : PathParts :=
  { parts with entries := parts.entries.erase row }

namespace Path

variable {H : Hash} {p q : Path} {n m r : Nat} {e : PathEntry} {flaw : PathFlaw} {input : Digest}

theorem linkFlaw?_eq_some (he : p.entry? n = some e) (hflaw : p.entryFlaw? H n e = some flaw)
    (hbelow : ∀ m e, m < n → p.entry? m = some e → p.entryFlaw? H m e = none) :
    p.linkFlaw? H = some flaw :=
  NatMap.findSome?_eq he hflaw hbelow

theorem linkFlaw?_eq_none (h : ∀ n e, p.entry? n = some e → p.entryFlaw? H n e = none) :
    p.linkFlaw? H = none :=
  linkFlaw?_eq_none_iff.2 fun n e input he => entryFlaw?_eq_none_iff.1 (h n e he) input

theorem verify_of_linkFlaw? (h : p.linkFlaw? H = some flaw) (hash : Digest) (row : Nat) :
    p.verify H hash row = .error flaw := by
  rw [verify, h]

theorem entryFlaw?_missing (hinput : e.input = some input) (hlink : r ∈ Skip.references n)
    (hr : r ≠ 0) (hlost : q.contains r = false)
    (hothers : ∀ k ∈ Skip.references n, k ≠ 0 → k ≠ r → q.contains k) :
    q.entryFlaw? H n e = some (.missingReference n r) := by
  have hfirst : (Skip.references n).find? (fun k => k ≠ 0 && !q.contains k) = some r := by
    cases hfound : (Skip.references n).find? fun k => k ≠ 0 && !q.contains k with
    | none =>
      have hnone := List.find?_eq_none.1 hfound r hlink
      simp [hr, hlost] at hnone
    | some k =>
      have hmem := List.mem_of_find?_eq_some hfound
      have hmissing := List.find?_some hfound
      simp only [Bool.and_eq_true, decide_eq_true_eq, Bool.not_eq_true'] at hmissing
      by_contra hne
      have hcontains := hothers k hmem hmissing.1 fun hkr => hne (congrArg some hkr)
      simp [hmissing.2] at hcontains
  simp only [entryFlaw?, hinput, hfirst]

theorem entryFlaw?_mismatch (hinput : e.input = some input)
    (hpresent : ∀ k ∈ Skip.references n, k ≠ 0 → q.contains k)
    (hhash : H.link input ((Skip.references n).map q.referenceHash) ≠ e.hash) :
    q.entryFlaw? H n e = some (.hashMismatch n (Skip.references n)) := by
  have hnone : (Skip.references n).find? (fun k => k ≠ 0 && !q.contains k) = none := by
    simpa using hpresent
  simp only [entryFlaw?, hinput, hnone, if_neg hhash]

theorem not_linksTo_high (p : Path) (m : Nat) : ¬p.LinksTo m p.high := by
  intro hlink
  have hbounds := hlink.bounds
  omega

theorem Rooted.exists_first_link (rooted : p.Rooted) (hr : p.contains r) (hhigh : r ≠ p.high) :
    ∃ m, IsLeast {m | p.LinksTo m r} m := by
  classical
  have hlink : ∃ m, p.LinksTo m r := rooted.2 r hr hhigh
  exact ⟨Nat.find hlink, Nat.find_spec hlink, fun m hm => Nat.find_min' hlink hm⟩

structure AlikeOff (r : Nat) (p q : Path) : Prop where
  low_eq : q.low = p.low
  high_eq : q.high = p.high
  targets_eq : q.targets = p.targets
  entry?_eq : ∀ n, n ≠ r → q.entry? n = p.entry? n

namespace AlikeOff

variable (alike : AlikeOff r p q)
include alike

theorem contains_eq (hn : n ≠ r) : q.contains n = p.contains n :=
  congrArg Option.isSome (alike.entry?_eq n hn)

theorem referenceHash_eq (hn : n ≠ r) : q.referenceHash n = p.referenceHash n := by
  rw [referenceHash, hash?, alike.entry?_eq n hn, referenceHash, hash?]

theorem map_referenceHash_eq {rows : List Nat} (h : ∀ k ∈ rows, k ≠ r) :
    rows.map q.referenceHash = rows.map p.referenceHash :=
  List.map_congr_left fun k hk => alike.referenceHash_eq (h k hk)

theorem entryFlaw?_eq_none (links : p.LinksHold H) (hn : n ≠ r) (hlink : ¬p.LinksTo n r)
    (he : q.entry? n = some e) : q.entryFlaw? H n e = none := by
  rw [alike.entry?_eq n hn] at he
  refine entryFlaw?_eq_none_iff.2 fun input hinput => ?_
  obtain ⟨hpresent, hhash⟩ := links n e input he hinput
  have hothers : ∀ k ∈ Skip.references n, k ≠ r := by
    rintro k hk rfl
    exact hlink ⟨isExpanded_iff.2 ⟨e, input, he, hinput⟩, hk⟩
  refine ⟨fun k hk hk0 => ?_, ?_⟩
  · rw [alike.contains_eq (hothers k hk)]
    exact hpresent k hk hk0
  · rw [alike.map_referenceHash_eq hothers, hhash]

theorem linksTo_iff : q.LinksTo n r ↔ p.LinksTo n r := by
  refine and_congr_left fun hlink => ?_
  rw [isExpanded, isExpanded, alike.entry?_eq n (Nat.ne_of_gt (Skip.lt_of_mem_references hlink))]

end AlikeOff

section Removal

theorem exists_without (p : Path) (r : Nat) :
    ∃ q, ofParts (p.without r) = .ok q ∧ AlikeOff r p q ∧ q.entry? r = none := by
  have hget : ∀ n, (p.without r).entries.get? n = if n = r then none else p.entry? n :=
    NatMap.get?_erase p.entries r
  have hkept : ∀ {n e}, (p.without r).entries.get? n = some e → p.entry? n = some e := by
    intro n e he
    rw [hget] at he
    split at he
    · cases he
    · exact he
  obtain ⟨hrange, htargets, hentries, hhigh⟩ := PathParts.fault?_eq_none_iff.1 p.faultless
  have hfault : (p.without r).fault? = none := PathParts.fault?_eq_none_iff.2
    ⟨hrange, htargets, fun n e he => hentries n e (hkept he), fun e he => hhigh e (hkept he)⟩
  refine ⟨⟨p.without r, hfault⟩, ofParts_of_faultless hfault, ⟨rfl, rfl, rfl, fun n hn => ?_⟩, ?_⟩
  · exact (hget n).trans (if_neg hn)
  · exact (hget r).trans (if_pos rfl)

theorem ne_of_lost (hlost : q.entry? r = none) (he : q.entry? n = some e) : n ≠ r := by
  rintro rfl
  rw [hlost] at he
  cases he

variable (links : p.LinksHold H) (alike : AlikeOff r p q) (hlost : q.entry? r = none)
include links alike hlost

theorem verify_without_high (hr : r = p.high) (hash : Digest) :
    q.verify H hash p.high = .error (.missingRow p.high) := by
  subst hr
  have hlinks : q.linkFlaw? H = none := linkFlaw?_eq_none fun n e he =>
    alike.entryFlaw?_eq_none links (ne_of_lost hlost he) (p.not_linksTo_high n) he
  rw [verify, hlinks, hash?, hlost]
  rfl

theorem verify_without (hr : p.contains r) (hm : IsLeast {m | p.LinksTo m r} m) (hash : Digest)
    (row : Nat) : q.verify H hash row = .error (.missingReference m r) := by
  obtain ⟨hexpanded, hlink⟩ : p.LinksTo m r := hm.1
  have hbelow := Skip.lt_of_mem_references hlink
  obtain ⟨e, input, he, hinput⟩ := isExpanded_iff.1 hexpanded
  obtain ⟨e', he'⟩ := contains_iff.1 hr
  have hflaw : q.entryFlaw? H m e = some (.missingReference m r) := by
    refine entryFlaw?_missing hinput hlink (entry_bounds he').1 ?_ fun k hk hk0 hkr => ?_
    · exact congrArg Option.isSome hlost
    · rw [alike.contains_eq hkr]
      exact (links m e input he hinput).1 k hk hk0
  refine verify_of_linkFlaw? (linkFlaw?_eq_some ?_ hflaw fun n e hn he => ?_) hash row
  · rw [alike.entry?_eq m (by omega), he]
  · refine alike.entryFlaw?_eq_none links (ne_of_lost hlost he) (fun hearlier => ?_) he
    exact Nat.not_le.2 hn (hm.2 hearlier)

end Removal

section Alteration

/-- The paths differ in nothing but one hash: that of one row, or the input hash of one row that
both expand. -/
structure AlteredAt (r : Nat) (p q : Path) : Prop extends AlikeOff r p q where
  altered : ∃ e e', p.entry? r = some e ∧ q.entry? r = some e' ∧
    (e.hash ≠ e'.hash ∧ e.input = e'.input ∨
      e.hash = e'.hash ∧ ∃ input input', e.input = some input ∧ e'.input = some input' ∧
        input ≠ input')

namespace AlteredAt

variable (altered : AlteredAt r p q)
include altered

theorem contains_iff : q.contains n ↔ p.contains n := by
  by_cases hn : n = r
  · obtain ⟨e, e', he, he', -⟩ := altered.altered
    rw [hn, Path.contains_iff, Path.contains_iff, he, he']
    simp
  · rw [altered.contains_eq hn]

theorem anchor (hr : ¬p.isExpanded r) :
    ∃ e e', p.entry? r = some e ∧ q.entry? r = some e' ∧ e'.input = none ∧ e.hash ≠ e'.hash := by
  obtain ⟨e, e', he, he', hdiffer⟩ := altered.altered
  have hanchor : e.input = none := by
    simpa [isExpanded, he, PathEntry.isExpanded] using hr
  rcases hdiffer with ⟨hhash, hinput⟩ | ⟨-, input, _, hinput, -⟩
  · exact ⟨e, e', he, he', hinput ▸ hanchor, hhash⟩
  · rw [hanchor] at hinput
    cases hinput

variable (links : p.LinksHold H)
include links

theorem entryFlaw?_of_anchor (hr : ¬p.isExpanded r) (hlink : ¬p.LinksTo n r)
    (he : q.entry? n = some e) : q.entryFlaw? H n e = none := by
  by_cases hn : n = r
  · obtain ⟨_, f, _, hf, hanchor, _⟩ := altered.anchor hr
    rw [hn, hf] at he
    rw [← Option.some.inj he, entryFlaw?, hanchor]
  · exact altered.entryFlaw?_eq_none links hn hlink he

theorem verify_high (hr : r = p.high) (hanchor : ¬p.isExpanded r) :
    q.verify H p.highHash p.high = .error (.unexpectedHash p.high) := by
  subst hr
  obtain ⟨e, e', he, he', -, hhash⟩ := altered.anchor hanchor
  have hlinks : q.linkFlaw? H = none := linkFlaw?_eq_none fun n f =>
    altered.entryFlaw?_of_anchor links hanchor (p.not_linksTo_high n)
  -- nothing links to the high row, so only the comparison of its hash fails
  rw [verify, hlinks, hash?_of_entry he', highHash, hash?_of_entry he]
  exact if_pos hhash.symm

variable (free : H.CollisionFree (p.linkPreimages ++ q.linkPreimages))
include free

theorem agree_of_link_eq {e' : PathEntry} {input' : Digest} (he : p.entry? n = some e)
    (hinput : e.input = some input) (he' : q.entry? n = some e') (hinput' : e'.input = some input')
    (hlink : H.link input' ((Skip.references n).map q.referenceHash) = e.hash) :
    input = input' ∧
      (Skip.references n).map p.referenceHash = (Skip.references n).map q.referenceHash := by
  obtain ⟨hpresent, hhash⟩ := links n e input he hinput
  apply linkPreimage_injective
  refine free _ (List.mem_append_left _ (mem_linkPreimages he hinput hpresent)) _
    (List.mem_append_right _ (mem_linkPreimages he' hinput' fun k hk hk0 => ?_))
    (hhash.trans hlink.symm)
  exact altered.contains_iff.2 (hpresent k hk hk0)

/-- An altered row that is expanded is found at itself, since what it links to is unaltered. -/
theorem linkFlaw?_expanded (hr : p.isExpanded r) :
    q.linkFlaw? H = some (.hashMismatch r (Skip.references r)) := by
  obtain ⟨e, input, he, hinput⟩ := isExpanded_iff.1 hr
  obtain ⟨hpresent, hhash⟩ := links r e input he hinput
  have hsame : (Skip.references r).map q.referenceHash = (Skip.references r).map p.referenceHash :=
    altered.map_referenceHash_eq fun k hk => Nat.ne_of_lt (Skip.lt_of_mem_references hk)
  obtain ⟨input', e', he', hinput', hmismatch⟩ : ∃ input' e', q.entry? r = some e' ∧
      e'.input = some input' ∧
        H.link input' ((Skip.references r).map q.referenceHash) ≠ e'.hash := by
    obtain ⟨f, e', hf, he', hdiffer⟩ := altered.altered
    obtain rfl : f = e := Option.some.inj (hf.symm.trans he)
    rcases hdiffer with ⟨hhashes, hinputs⟩ | ⟨hhashes, known, found, hknown, hfound, hne⟩
    · refine ⟨input, e', he', hinputs ▸ hinput, fun heq => hhashes ?_⟩
      rw [← heq, hsame, hhash]
    · refine ⟨found, e', he', hfound, fun heq => hne ?_⟩
      exact (altered.agree_of_link_eq links free he hknown he' hfound (heq.trans hhashes.symm)).1
  refine linkFlaw?_eq_some he' (entryFlaw?_mismatch hinput' (fun k hk hk0 => ?_) hmismatch)
    fun n f hn hf => altered.entryFlaw?_eq_none links (Nat.ne_of_lt hn) (fun hlink => ?_) hf
  · exact altered.contains_iff.2 (hpresent k hk hk0)
  · exact Nat.lt_asymm hn (Skip.lt_of_mem_references hlink.2)

theorem linkFlaw?_anchor (hr : ¬p.isExpanded r) (hm : IsLeast {m | p.LinksTo m r} m) :
    q.linkFlaw? H = some (.hashMismatch m (Skip.references m)) := by
  obtain ⟨hexpanded, hlink⟩ : p.LinksTo m r := hm.1
  have hbelow := Skip.lt_of_mem_references hlink
  obtain ⟨e, input, he, hinput⟩ := isExpanded_iff.1 hexpanded
  have he' : q.entry? m = some e := by rw [altered.entry?_eq m (by omega), he]
  obtain ⟨f, f', hf, hf', -, hhash⟩ := altered.anchor hr
  have hmismatch : H.link input ((Skip.references m).map q.referenceHash) ≠ e.hash := by
    intro heq
    have hagree := List.map_inj_left.1
      (altered.agree_of_link_eq links free he hinput he' hinput heq).2 r hlink
    rw [referenceHash, referenceHash, if_neg (entry_bounds hf).1, if_neg (entry_bounds hf).1,
      hash?_of_entry hf, hash?_of_entry hf'] at hagree
    exact hhash hagree
  refine linkFlaw?_eq_some he' (entryFlaw?_mismatch hinput (fun k hk hk0 => ?_) hmismatch)
    fun n g hn hg => ?_
  · exact altered.contains_iff.2 ((links m e input he hinput).1 k hk hk0)
  · refine altered.entryFlaw?_of_anchor links hr (fun hearlier => ?_) hg
    exact Nat.not_le.2 hn (hm.2 hearlier)

theorem exists_flaw (rooted : p.Rooted) :
    ∃ flaw, q.verify H p.highHash p.high = .error flaw ∧ r ∈ flaw.suspects ∧
      (p.isExpanded r ∨ r = p.high → flaw.row = r) ∧
      (¬(p.isExpanded r ∨ r = p.high) → IsLeast {m | p.LinksTo m r} flaw.row) := by
  by_cases hexpanded : p.isExpanded r
  · have hflaw := altered.linkFlaw?_expanded links free hexpanded
    exact ⟨_, verify_of_linkFlaw? hflaw _ _, List.mem_cons_self, fun _ => rfl,
      fun hneither => absurd (.inl hexpanded) hneither⟩
  · by_cases hhigh : r = p.high
    · refine ⟨_, altered.verify_high links hhigh hexpanded, ?_, fun _ => hhigh.symm,
        fun hneither => absurd (.inr hhigh) hneither⟩
      exact List.mem_singleton.2 hhigh
    · obtain ⟨e, _, he, _⟩ := altered.altered
      obtain ⟨m, hm⟩ := rooted.exists_first_link (Path.contains_iff.2 ⟨e, he⟩) hhigh
      have hflaw := altered.linkFlaw?_anchor links free hexpanded hm
      refine ⟨_, verify_of_linkFlaw? hflaw _ _, ?_, fun heither => ?_, fun _ => hm⟩
      · refine List.mem_cons_of_mem m (List.mem_filter.2 ⟨hm.1.2, ?_⟩)
        exact decide_eq_true (entry_bounds he).1
      · exact absurd heither (not_or.2 ⟨hexpanded, hhigh⟩)

end AlteredAt

end Alteration

end Path

namespace Ledger

variable {l : Ledger} {targets : List Nat} {low high r : Nat} {p q : Path}

/-- A path that a ledger builds with a row taken out is still a path, and its check names the row:
as the row asked for if it is the high one, and else as missing where it is first linked to. -/
theorem removal_named (reachable : l.Reachable) (hpath : l.path targets low high = .ok p)
    (hr : p.contains r) :
    ∃ q state, Path.ofParts (p.without r) = .ok q ∧ l.rowHash high = .ok state ∧
      (r = high → q.verify l.algorithm.digest state high = .error (.missingRow high)) ∧
      (r ≠ high → ∃ m, IsLeast {m | q.LinksTo m r} m ∧
        q.verify l.algorithm.digest state high = .error (.missingReference m r)) := by
  have built := path_eq_ok_iff.1 hpath
  have links := built.linksHold reachable.linked
  have hhigh := built.high_eq
  obtain ⟨q, hq, alike, hlost⟩ := p.exists_without r
  refine ⟨q, p.highHash, hq, built.highHash_eq, fun hrhigh => ?_, fun hrhigh => ?_⟩
  · rw [← hhigh] at hrhigh ⊢
    exact Path.verify_without_high links alike hlost hrhigh p.highHash
  · rw [← hhigh] at hrhigh
    obtain ⟨m, hm⟩ := built.rooted.exists_first_link hr hrhigh
    refine ⟨m, ?_, Path.verify_without links alike hlost hr hm p.highHash high⟩
    simpa only [alike.linksTo_iff] using hm

def secondRow : Path where
  low := 1
  high := 2
  targets := .ofList [2]
  entries := .ofList [(1, ⟨Path.twoRows.hashBelow 1, none⟩),
    (2, ⟨Path.twoRows.hashBelow 2, some (.filled 2)⟩)]
  faultless := by decide

theorem path_secondRow : Path.twoRows.path [2] 1 2 = .ok secondRow := by decide +kernel

theorem reachable_twoRows : Path.twoRows.Reachable := .append _ (.append _ (.new _))

theorem removal_named_secondRow :
    secondRow.contains 1 ∧ ∃ q state, Path.ofParts (secondRow.without 1) = .ok q ∧
      Path.twoRows.rowHash 2 = .ok state ∧
      q.verify Path.twoRows.algorithm.digest state 2 = .error (.missingReference 2 1) := by
  have hcontains : secondRow.contains 1 := by decide
  obtain ⟨q, state, hq, hstate, -, hmissing⟩ :=
    removal_named reachable_twoRows path_secondRow hcontains
  obtain ⟨m, hm, hverify⟩ := hmissing (by decide)
  obtain ⟨_, hq', alike, -⟩ := secondRow.exists_without 1
  obtain rfl := Except.ok.inj (hq'.symm.trans hq)
  have hlow := Skip.lt_of_mem_references hm.1.2
  have hbound : m ≤ 2 := hm.2 (alike.linksTo_iff.2 ⟨by decide, by decide⟩)
  obtain rfl : m = 2 := by omega
  exact ⟨hcontains, _, state, hq, hstate, hverify⟩

/-- A path that a ledger builds with one hash altered fails its check, and the altered row is among
the suspects. It is the row named if it is expanded or the high one, else it is first linked to from
the row named. -/
theorem alteration_located (reachable : l.Reachable) (hpath : l.path targets low high = .ok p)
    (altered : Path.AlteredAt r p q)
    (free : l.algorithm.digest.CollisionFree (p.linkPreimages ++ q.linkPreimages)) :
    ∃ state flaw, l.rowHash high = .ok state ∧
      q.verify l.algorithm.digest state high = .error flaw ∧ r ∈ flaw.suspects ∧
      (p.isExpanded r ∨ r = high → flaw.row = r) ∧
      (¬(p.isExpanded r ∨ r = high) → IsLeast {m | p.LinksTo m r} flaw.row) := by
  have built := path_eq_ok_iff.1 hpath
  obtain ⟨flaw, hflaw⟩ :=
    altered.exists_flaw (built.linksHold reachable.linked) free built.rooted
  rw [built.high_eq] at hflaw
  exact ⟨p.highHash, flaw, built.highHash_eq, hflaw⟩

def forgedFirst : Path where
  low := 1
  high := 2
  targets := .ofList [2]
  entries := secondRow.entries.insert 1 ⟨.filled 9, none⟩
  faultless := by decide

/-- An anchor is not checked by itself: its row is suspected because row 2 comes out wrong. -/
theorem alteration_located_forgedFirst :
    Path.AlteredAt 1 secondRow forgedFirst ∧
      ∃ state flaw, Path.twoRows.rowHash 2 = .ok state ∧
        forgedFirst.verify Path.twoRows.algorithm.digest state 2 = .error flaw ∧
        1 ∈ flaw.suspects ∧ flaw.row = 2 := by
  have altered : Path.AlteredAt 1 secondRow forgedFirst := by
    refine ⟨⟨rfl, rfl, rfl, fun n hn => ?_⟩, ?_⟩
    · exact (NatMap.get?_insert secondRow.entries 1 n _).trans (if_neg hn)
    · exact ⟨_, _, rfl, rfl, .inl ⟨by decide +kernel, rfl⟩⟩
  obtain ⟨state, flaw, hstate, hverify, hsuspect, -, hfirst⟩ :=
    alteration_located reachable_twoRows path_secondRow altered (by decide +kernel)
  have hlink : secondRow.LinksTo flaw.row 1 := (hfirst (by decide)).1
  have hbound : flaw.row ≤ 2 := (hfirst (by decide)).2 ⟨by decide, by decide⟩
  have hbelow := Skip.lt_of_mem_references hlink.2
  exact ⟨altered, state, flaw, hstate, hverify, hsuspect, by omega⟩

end Ledger

end SkipChain
