import SkipChain.Proofs.Path.Build
/-!
Paths can be had for all that they could prove. A path is built for every range of a ledger's rows
and all targets in it, it is accepted against the hash of each row that it records, and it records
nothing but the ledger's hashes.
-/
namespace SkipChain.Ledger

namespace Built

variable {l : Ledger} {targets : NatSet} {low high n : Nat} {p : Path}

theorem isExpanded_iff (built : Built l targets low high p) :
    p.isExpanded n ↔ n ∈ expandedRows targets low high := by
  rw [Path.isExpanded, built.entry?_eq, builtEntry?]
  by_cases hn : n ∈ expandedRows targets low high
  · have hbounds := built.spans.expanded_bounds hn
    have hsize := built.high_le
    obtain ⟨r, _, hentry⟩ := entryOf?_some (l := l) true ⟨hbounds.1, by omega⟩
    simp [hn, hentry, PathEntry.isExpanded]
  · simp only [hn, if_false, iff_false]
    split
    · cases hrow : l.row? n <;> simp [entryOf?, hrow, PathEntry.isExpanded]
    · simp

theorem contains_iff (built : Built l targets low high p) :
    p.contains n ↔ n ∈ expandedRows targets low high ∨
      n ≠ 0 ∧ (n = low ∨ ∃ m ∈ expandedRows targets low high, n ∈ Skip.references m) := by
  have hsize := built.high_le
  rw [Path.contains_iff, built.entry?_eq, builtEntry?]
  by_cases hn : n ∈ expandedRows targets low high
  · have hbounds := built.spans.expanded_bounds hn
    obtain ⟨r, _, hentry⟩ := entryOf?_some (l := l) true ⟨hbounds.1, by omega⟩
    simp [hn, hentry]
  · by_cases hanchor : n ≠ 0 ∧ (n = low ∨ ∃ m ∈ (expandedRows targets low high).toList,
        n ∈ Skip.references m)
    · have hhigh : n ≤ high := by
        rcases hanchor.2 with rfl | ⟨m, hm, hlink⟩
        · exact built.spans.low_le
        · have hlt := Skip.lt_of_mem_references hlink
          have hbounds := built.spans.expanded_bounds hm
          omega
      obtain ⟨r, _, hentry⟩ :=
        entryOf?_some (l := l) false ⟨Nat.pos_of_ne_zero hanchor.1, Nat.le_trans hhigh hsize⟩
      rw [if_neg hn, if_pos hanchor, hentry]
      exact ⟨fun _ => .inr hanchor, fun _ => ⟨_, rfl⟩⟩
    · rw [if_neg hn, if_neg hanchor]
      constructor
      · rintro ⟨_, ⟨⟩⟩
      · intro h
        exact absurd (h.resolve_left hn) hanchor

theorem confirms (built : Built l targets low high p) {e : PathEntry}
    (he : p.entry? n = some e) : l.Confirms n e := by
  rw [built.entry?_eq, builtEntry?] at he
  split at he
  · exact confirms_of_entryOf? he
  · split at he
    · exact confirms_of_entryOf? he
    · cases he

theorem stop_contained (built : Built l targets low high p) (hn : n ∈ stops targets low high)
    (hlow : n ≠ 0) : p.contains n := by
  refine built.contains_iff.2 ?_
  by_cases hlowest : max low 1 < n
  · exact .inl (stop_expanded hn hlowest)
  · have hbounds := built.spans.stop_bounds hn
    by_cases hlow0 : low = 0
    · exact .inl (mem_expandedRows.2 (.inr ⟨hlow0, by omega⟩))
    · exact .inr ⟨hlow, .inl (by omega)⟩

theorem referenceHash_eq (built : Built l targets low high p) (hn : n = 0 ∨ p.contains n) :
    p.referenceHash n = l.hashBelow n := by
  rcases hn with rfl | hn
  · rfl
  · obtain ⟨e, he⟩ := Path.contains_iff.1 hn
    have hn0 := (Path.entry_bounds he).1
    obtain ⟨r, hr, hhash⟩ := exists_row?_of_rowHash hn0 (built.confirms he).1
    rw [Path.referenceHash, if_neg hn0, Path.hash?_of_entry he, hashBelow, hr, Option.getD_some,
      ← hhash]
    rfl

theorem linksHold (built : Built l targets low high p) (linked : l.Linked) :
    p.LinksHold l.algorithm.digest := by
  intro n e input he hinput
  have hn := built.isExpanded_iff.1 (Path.isExpanded_iff.2 ⟨e, input, he, hinput⟩)
  have hpresent : ∀ r ∈ Skip.references n, r ≠ 0 → p.contains r := fun r hr hr0 =>
    built.contains_iff.2 (.inr ⟨hr0, .inr ⟨n, hn, hr⟩⟩)
  refine ⟨hpresent, ?_⟩
  obtain ⟨hhash, hledger⟩ := built.confirms he
  obtain ⟨r, hr, hrhash⟩ := exists_row?_of_rowHash (Path.entry_bounds he).1 hhash
  have hrinput : r.input = input := by
    have h := hledger input hinput
    rw [inputHash_of_row? hr] at h
    exact Except.ok.inj h
  have hlinks : (Skip.references n).map p.referenceHash = (Skip.references n).map l.hashBelow := by
    apply List.map_congr_left
    intro k hk
    apply built.referenceHash_eq
    by_cases hk0 : k = 0
    · exact .inl hk0
    · exact .inr (hpresent k hk hk0)
  rw [hlinks, ← hrinput, ← linked n r hr, hrhash]

theorem rooted (built : Built l targets low high p) : p.Rooted := by
  constructor
  · intro n hn
    simp only [Path.required, built.low_eq, built.high_eq, built.targets_eq, List.mem_filter,
      List.mem_append, List.mem_cons, List.not_mem_nil, or_false, decide_eq_true_eq] at hn
    obtain ⟨hn, hn0⟩ := hn
    refine built.stop_contained (mem_stops.2 ?_) hn0
    rcases hn with hn | rfl | rfl
    · exact .inr (.inr hn)
    · exact .inr (.inl rfl)
    · exact .inl (by omega)
  · intro n hn hhigh
    rw [built.high_eq] at hhigh
    have hlink : ∃ m ∈ expandedRows targets low high, n ∈ Skip.references m := by
      rcases built.contains_iff.1 hn with hn | ⟨hn0, rfl | hlink⟩
      · exact built.spans.expanded_referenced hn hhigh
      · exact built.spans.stop_referenced (mem_stops.2 (.inl (by omega))) hhigh
      · exact hlink
    obtain ⟨m, hm, hlink⟩ := hlink
    exact ⟨m, built.isExpanded_iff.2 hm, hlink⟩

theorem verify_eq_ok (built : Built l targets low high p) (linked : l.Linked) (hn : p.contains n) :
    ∃ hash, l.rowHash n = .ok hash ∧ p.verify l.algorithm.digest hash n = .ok () := by
  obtain ⟨e, he⟩ := Path.contains_iff.1 hn
  refine ⟨e.hash, (built.confirms he).1, Path.verify_eq_ok_iff.2 ?_⟩
  exact ⟨built.linksHold linked, Path.hash?_of_entry he, built.rooted⟩

theorem highHash_eq (built : Built l targets low high p) : l.rowHash high = .ok p.highHash := by
  have hpos := built.spans.high_pos
  have hcontains := built.stop_contained (mem_stops.2 (.inr (.inl rfl))) (by omega)
  obtain ⟨e, he⟩ := Path.contains_iff.1 hcontains
  rw [Path.highHash, built.high_eq, Path.hash?_of_entry he, (built.confirms he).1, Option.getD_some]

theorem verifySelf_eq_ok (built : Built l targets low high p) (linked : l.Linked) :
    p.verifySelf l.algorithm.digest = .ok () := by
  have hpos := built.spans.high_pos
  have hcontains := built.stop_contained (mem_stops.2 (.inr (.inl rfl))) (by omega)
  obtain ⟨hash, hhash, hverify⟩ := built.verify_eq_ok linked hcontains
  rw [built.highHash_eq] at hhash
  rw [Path.verifySelf, built.high_eq, Except.ok.inj hhash, hverify]

theorem target_expanded (built : Built l targets low high p) (hn : n ∈ targets)
    (hlow : low = 0 ∨ low < n) : p.isExpanded n := by
  refine built.isExpanded_iff.2 ?_
  have hbounds := built.spans.targets n hn
  by_cases hlowest : max low 1 < n
  · exact stop_expanded (mem_stops.2 (.inr (.inr hn))) hlowest
  · exact mem_expandedRows.2 (.inr ⟨by omega, by omega⟩)

end Built

/-- What a path from `low` to `high` tells of a ledger, when the ledger itself gives it for the
rows wanted. -/
structure Shows (l : Ledger) (wanted : List Nat) (low high : Nat) (p : Path) : Prop where
  ends : p.low = low ∧ p.high = high
  targets : ∀ t, t ∈ p.targets ↔ t ∈ wanted ∧ t ≠ 0
  /-- The parts of the path make the path again. -/
  parts : Path.ofParts p.toPathParts = .ok p
  accepted : ∀ n, p.contains n →
    ∃ hash, l.rowHash n = .ok hash ∧ p.verify l.algorithm.digest hash n = .ok ()
  acceptedSelf : p.verifySelf l.algorithm.digest = .ok ()
  confirmed : ∀ n e, p.entry? n = some e → l.Confirms n e
  fromStart : low = 0 → p.isExpanded 1 ∧ ∀ t ∈ wanted, t ≠ 0 → p.isExpanded t
  fromRow : 0 < low → p.contains low ∧ (∀ t ∈ wanted, low < t → p.isExpanded t) ∧
    ∀ n, p.isExpanded n → low < n

theorem Built.shows {l : Ledger} {targets : List Nat} {low high : Nat} {p : Path}
    (built : Built l (targetSet targets) low high p) (linked : l.Linked) :
    l.Shows targets low high p where
  ends := ⟨built.low_eq, built.high_eq⟩
  targets t := by rw [built.targets_eq, mem_targetSet]
  parts := Path.ofParts_of_faultless p.faultless
  accepted n hn := built.verify_eq_ok linked hn
  acceptedSelf := built.verifySelf_eq_ok linked
  confirmed n e he := built.confirms he
  fromStart hlow := by
    refine ⟨built.isExpanded_iff.2 (mem_expandedRows.2 (.inr ⟨hlow, rfl⟩)), fun t ht ht0 => ?_⟩
    exact built.target_expanded (mem_targetSet.2 ⟨ht, ht0⟩) (.inl hlow)
  fromRow hlow := by
    refine ⟨built.stop_contained (mem_stops.2 (.inl (by omega))) (by omega), ?_, fun n hn => ?_⟩
    · intro t ht hlt
      exact built.target_expanded (mem_targetSet.2 ⟨ht, by omega⟩) (.inr hlt)
    · have hbounds := built.spans.expanded_bounds (built.isExpanded_iff.1 hn)
      omega

/-- A path is built exactly for the ranges of a ledger's rows with targets in them, where target 0
does not count. Else the range is refused, or the first target outside of it. -/
theorem path_complete {l : Ledger} (reachable : l.Reachable) (targets : List Nat)
    (low high : Nat) :
    let inRows := 1 ≤ high ∧ high ≤ l.size ∧ low ≤ high
    let inRange := fun t : Nat => t ≠ 0 → low ≤ t ∧ t ≤ high
    ((∃ p, l.path targets low high = .ok p) ↔ inRows ∧ ∀ t ∈ targets, inRange t) ∧
      (¬inRows → l.path targets low high = .error (.invalidRange low high l.size)) ∧
      (∀ before t after, inRows → targets = before ++ t :: after → (∀ s ∈ before, inRange s) →
        ¬inRange t → l.path targets low high = .error (.targetOutOfRange t low high)) ∧
      ∀ p, l.path targets low high = .ok p → l.Shows targets low high p := by
  intro inRows inRange
  refine ⟨⟨fun ⟨p, hp⟩ => ?_, fun ⟨hrows, hrange⟩ => ?_⟩, path_of_range, ?_, fun p hp => ?_⟩
  · have built := path_eq_ok_iff.1 hp
    refine ⟨⟨built.spans.high_pos, built.high_le, built.spans.low_le⟩, fun t ht ht0 => ?_⟩
    exact (built.spans.targets t (mem_targetSet.2 ⟨ht, ht0⟩)).2
  · have spans : Spans (targetSet targets) low high := by
      refine ⟨hrows.1, hrows.2.2, fun t ht => ?_⟩
      rw [mem_targetSet] at ht
      exact ⟨ht.2, hrange t ht.1 ht.2⟩
    obtain ⟨p, hp, _⟩ := path_of_spans spans hrows.2.1
    exact ⟨p, hp⟩
  · rintro before t after hrows rfl hbefore ht
    obtain ⟨ht0, hout⟩ := Classical.not_imp.1 ht
    exact path_of_target hrows hbefore ht0 hout
  · exact (path_eq_ok_iff.1 hp).shows reachable.linked

def regrown : Ledger := .ofInputs .blake3 [.filled 1, .filled 2, .filled 4, .filled 5]

theorem path_complete_regrown :
    (∃ p, regrown.path [4, 0, 3] 2 4 = .ok p ∧ p.isExpanded 3 ∧ p.contains 2 ∧ ¬p.isExpanded 2) ∧
      regrown.path [2, 1, 5] 2 4 = .error (.targetOutOfRange 1 2 4) ∧
      regrown.path [7] 0 5 = .error (.invalidRange 0 5 4) := by
  have full : (Ledger.ofInputs .blake3 [.filled 1, .filled 2, .filled 9]).Reachable :=
    .append _ (.append _ (.append _ (.new _)))
  have htrim : (Ledger.ofInputs .blake3 [.filled 1, .filled 2, .filled 9]).trim 2 =
      .ok (.ofInputs .blake3 [.filled 1, .filled 2]) := by decide +kernel
  have reachable : regrown.Reachable := .append _ (.append _ (.trim full htrim))
  have hsize : regrown.size = 4 := by decide +kernel
  refine ⟨?_, ?_, ?_⟩
  · obtain ⟨hbuilds, _, _, hshows⟩ := path_complete reachable [4, 0, 3] 2 4
    obtain ⟨p, hp⟩ := hbuilds.2 (by simp [hsize])
    have shows := hshows p hp
    obtain ⟨hlow, htargets, habove⟩ := shows.fromRow (by decide)
    refine ⟨p, hp, htargets 3 (by simp) (by decide), hlow, fun htwo => ?_⟩
    exact absurd (habove 2 htwo) (by decide)
  · exact (path_complete reachable [2, 1, 5] 2 4).2.2.1 [2] 1 [5] (by simp [hsize]) rfl
      (by simp) (by simp)
  · have hrange := (path_complete reachable [7] 0 5).2.1 (by simp [hsize])
    rwa [hsize] at hrange

end SkipChain.Ledger
