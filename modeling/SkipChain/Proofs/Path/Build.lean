import SkipChain.Proofs.Ascending
import SkipChain.Proofs.Path.Descent
import SkipChain.Proofs.Path.Soundness
/-!
What the path that a ledger builds records: the rows on the way down with their input hashes, and
the rows that these link to without. Nothing of the ledger above the high row is looked at.
-/
namespace SkipChain

namespace Ledger

variable {l l' : Ledger} {n low high : Nat} {p : Path}

def entryOf? (l : Ledger) (expanded : Bool) (n : Nat) : Option PathEntry :=
  (l.row? n).map fun r => ⟨r.hash, if expanded then some r.input else none⟩

theorem entryOf?_some (expanded : Bool) (h : 1 ≤ n ∧ n ≤ l.size) :
    ∃ r, l.row? n = some r ∧
      l.entryOf? expanded n = some ⟨r.hash, if expanded then some r.input else none⟩ := by
  obtain ⟨r, hr⟩ := exists_row?_iff.2 h
  exact ⟨r, hr, by rw [entryOf?, hr]; rfl⟩

theorem confirms_of_entryOf? {expanded : Bool} {e : PathEntry}
    (h : l.entryOf? expanded n = some e) : l.Confirms n e := by
  obtain ⟨r, hr, rfl⟩ := Option.map_eq_some_iff.1 h
  refine ⟨rowHash_of_row? hr, fun input hinput => ?_⟩
  cases expanded with
  | false => simp at hinput
  | true =>
    rw [inputHash_of_row? hr]
    exact congrArg Except.ok (Option.some.inj hinput)

theorem foldlM_addExpanded {rows : List Nat} (h : ∀ n ∈ rows, 1 ≤ n ∧ n ≤ l.size)
    (entries : NatMap PathEntry) :
    ∃ found, rows.foldlM l.addExpanded entries = .ok found ∧
      ∀ n, found.get? n = if n ∈ rows then l.entryOf? true n else entries.get? n := by
  induction rows generalizing entries with
  | nil => exact ⟨entries, rfl, by simp⟩
  | cons m rows ih =>
    obtain ⟨r, hr, hentry⟩ := entryOf?_some true (h m List.mem_cons_self)
    have hstep : l.addExpanded entries m = .ok (entries.insert m ⟨r.hash, some r.input⟩) := by
      rw [addExpanded, inputHash_of_row? hr, rowHash_of_row? hr]
      rfl
    obtain ⟨found, hfound, hget⟩ := ih (fun n hn => h n (List.mem_cons_of_mem _ hn))
      (entries.insert m ⟨r.hash, some r.input⟩)
    refine ⟨found, ?_, fun n => ?_⟩
    · rw [List.foldlM_cons, hstep]
      exact hfound
    · rw [hget, NatMap.get?_insert]
      by_cases hnm : n = m
      · simp [hnm, hentry]
      · simp [hnm]

theorem foldlM_addAnchor {rows : List Nat} (h : ∀ n ∈ rows, n ≤ l.size)
    (entries : NatMap PathEntry) :
    ∃ found, rows.foldlM l.addAnchor entries = .ok found ∧
      ∀ n, found.get? n =
        if entries.get? n = none ∧ n ≠ 0 ∧ n ∈ rows then l.entryOf? false n
        else entries.get? n := by
  induction rows generalizing entries with
  | nil => exact ⟨entries, rfl, by simp⟩
  | cons m rows ih =>
    have hrest := ih fun n hn => h n (List.mem_cons_of_mem _ hn)
    by_cases hskip : m = 0 ∨ entries.contains m
    · -- nothing is recorded for a row that has an entry
      obtain ⟨found, hfound, hget⟩ := hrest entries
      refine ⟨found, ?_, fun n => ?_⟩
      · rw [List.foldlM_cons, addAnchor, if_pos hskip]
        exact hfound
      · rw [hget]
        by_cases hnm : n = m
        · subst hnm
          rcases hskip with rfl | hcontains
          · simp
          · obtain ⟨e, he⟩ := NatMap.contains_iff.1 hcontains
            simp [he]
        · simp [hnm]
    · rw [not_or, Bool.not_eq_true, NatMap.contains, Option.isSome_eq_false_iff,
        Option.isNone_iff_eq_none] at hskip
      obtain ⟨r, hr, hentry⟩ :=
        entryOf?_some false ⟨Nat.pos_of_ne_zero hskip.1, h m List.mem_cons_self⟩
      have hstep : l.addAnchor entries m = .ok (entries.insert m ⟨r.hash, none⟩) := by
        rw [addAnchor, rowHash_of_row? hr, if_neg]
        · rfl
        · simp [NatMap.contains, hskip]
      obtain ⟨found, hfound, hget⟩ := hrest (entries.insert m ⟨r.hash, none⟩)
      refine ⟨found, ?_, fun n => ?_⟩
      · rw [List.foldlM_cons, hstep]
        exact hfound
      · rw [hget, NatMap.get?_insert]
        by_cases hnm : n = m
        · simp [hnm, hskip, hentry]
        · simp [hnm]

def builtEntry? (l : Ledger) (expanded : NatSet) (low n : Nat) : Option PathEntry :=
  if n ∈ expanded then l.entryOf? true n
  else if n ≠ 0 ∧ (n = low ∨ ∃ m ∈ expanded.toList, n ∈ Skip.references m) then
    l.entryOf? false n
  else none

theorem builtEntry?_congr {expanded : NatSet} (hexpanded : ∀ m ∈ expanded, m ≤ high)
    (hlow : low ≤ high) (hrows : ∀ k ≤ high, l'.row? k = l.row? k) (n : Nat) :
    l'.builtEntry? expanded low n = l.builtEntry? expanded low n := by
  unfold builtEntry? entryOf?
  by_cases hn : n ≤ high
  · rw [hrows n hn]
  · have hunlinked : ¬∃ m ∈ expanded.toList, n ∈ Skip.references m := by
      rintro ⟨m, hm, hlink⟩
      have hlt := Skip.lt_of_mem_references hlink
      have hle := hexpanded m hm
      omega
    rw [if_neg fun h => hn (hexpanded n h), if_neg fun h => hn (hexpanded n h), if_neg, if_neg]
    · rintro ⟨_, rfl | h⟩
      · exact hn hlow
      · exact hunlinked h
    · rintro ⟨_, rfl | h⟩
      · exact hn hlow
      · exact hunlinked h

theorem pathEntries_spec {expanded : NatSet} (hexpanded : ∀ n ∈ expanded, 1 ≤ n ∧ n ≤ l.size)
    (hlow : low ≤ l.size) :
    ∃ entries, l.pathEntries expanded low = .ok entries ∧
      ∀ n, entries.get? n = l.builtEntry? expanded low n := by
  obtain ⟨rows, hrows, hget⟩ := foldlM_addExpanded hexpanded .empty
  have hlinks : ∀ n ∈ expanded.toList.flatMap Skip.references ++ [low], n ≤ l.size := by
    intro n hn
    rcases List.mem_append.1 hn with hn | hn
    · obtain ⟨m, hm, hlink⟩ := List.mem_flatMap.1 hn
      have hlt := Skip.lt_of_mem_references hlink
      have hle := (hexpanded m hm).2
      omega
    · rw [List.mem_singleton.1 hn]
      exact hlow
  obtain ⟨entries, hentries, hget'⟩ := foldlM_addAnchor hlinks rows
  refine ⟨entries, ?_, fun n => ?_⟩
  · rw [List.foldlM_append] at hentries
    rw [pathEntries, hrows]
    change (List.foldlM l.addAnchor rows (expanded.toList.flatMap Skip.references) >>=
      fun entries => l.addAnchor entries low) = _
    simpa using hentries
  · rw [hget', hget, builtEntry?]
    by_cases hn : n ∈ expanded
    · obtain ⟨r, _, hentry⟩ := entryOf?_some true (hexpanded n hn)
      simp [NatSet.mem_def.1 hn, hentry, hn]
    · simp [show n ∉ expanded.toList from hn, hn, or_comm]

def targetSet (targets : List Nat) : NatSet := .ofList (targets.filter (· ≠ 0))

@[simp] theorem mem_targetSet {targets : List Nat} : n ∈ targetSet targets ↔ n ∈ targets ∧ n ≠ 0 := by
  simp [targetSet]

structure Built (l : Ledger) (targets : NatSet) (low high : Nat) (p : Path) : Prop where
  spans : Spans targets low high
  low_eq : p.low = low
  high_eq : p.high = high
  targets_eq : p.targets = targets
  high_le : high ≤ l.size
  entry?_eq : ∀ n, p.entry? n = l.builtEntry? (expandedRows targets low high) low n

theorem faultless_of_entries {targets : NatSet} {entries : NatMap PathEntry}
    (spans : Spans targets low high)
    (hentries : ∀ n, entries.get? n = l.builtEntry? (expandedRows targets low high) low n) :
    PathParts.fault? ⟨low, high, targets, entries⟩ = none := by
  have hpos := spans.high_pos
  have hle := spans.low_le
  apply PathParts.fault?_eq_none_iff.2
  dsimp only
  refine ⟨⟨by omega, hle⟩, fun t ht => ?_, fun n e he => ?_, fun e he => ?_⟩
  · have hbounds := spans.targets t ht
    exact ⟨hbounds.2.1, hbounds.2.2, hbounds.1⟩
  · simp only [hentries, builtEntry?] at he
    split at he
    · next hn =>
      have hbounds := spans.expanded_bounds hn
      omega
    · split at he
      · next hn =>
        obtain ⟨hn0, rfl | ⟨m, hm, hlink⟩⟩ := hn
        · exact ⟨hn0, hle⟩
        · have hlt := Skip.lt_of_mem_references hlink
          have hbounds := spans.expanded_bounds hm
          omega
      · cases he
  · simp only [hentries, builtEntry?] at he
    by_cases hlow : low = high
    · exact .inr hlow
    · -- the high row is the highest stop, and above the lowest one it is expanded
      have hexpanded : high ∈ expandedRows targets low high := by
        by_cases hone : max low 1 < high
        · exact stop_expanded (mem_stops.2 (.inr (.inl rfl))) hone
        · exact mem_expandedRows.2 (.inr ⟨by omega, by omega⟩)
      rw [if_pos hexpanded] at he
      obtain ⟨r, _, rfl⟩ := Option.map_eq_some_iff.1 he
      exact .inl rfl

theorem path_of_range {targets : List Nat} (h : ¬(1 ≤ high ∧ high ≤ l.size ∧ low ≤ high)) :
    l.path targets low high = .error (.invalidRange low high l.size) := by
  have hrange : high = 0 ∨ high < low ∨ l.size < high := by omega
  rw [path, if_pos hrange]
  rfl

theorem path_of_target {before after : List Nat} {t : Nat}
    (hrange : 1 ≤ high ∧ high ≤ l.size ∧ low ≤ high)
    (hbefore : ∀ s ∈ before, s ≠ 0 → low ≤ s ∧ s ≤ high) (ht : t ≠ 0)
    (houtside : ¬(low ≤ t ∧ t ≤ high)) :
    l.path (before ++ t :: after) low high = .error (.targetOutOfRange t low high) := by
  have hfirst : ((before ++ t :: after).filter (· ≠ 0)).find? (fun s => s < low || high < s) =
      some t := by
    have hkept : (before ++ t :: after).filter (· ≠ 0) =
        before.filter (· ≠ 0) ++ t :: after.filter (· ≠ 0) := by
      simp [ht]
    have hnone : (before.filter (· ≠ 0)).find? (fun s => s < low || high < s) = none := by
      apply List.find?_eq_none.2
      intro s hs
      rw [List.mem_filter] at hs
      have hin := hbefore s hs.1 (by simpa using hs.2)
      simp
      omega
    rw [hkept, List.find?_append, hnone, Option.none_or, List.find?_cons_of_pos]
    simp
    omega
  rw [path, if_neg (by omega)]
  simp only [hfirst]
  rfl

theorem path_of_spans {targets : List Nat} (spans : Spans (targetSet targets) low high)
    (hsize : high ≤ l.size) :
    ∃ p, l.path targets low high = .ok p ∧ Built l (targetSet targets) low high p := by
  have hpos := spans.high_pos
  have hle := spans.low_le
  have hinside : (targets.filter (· ≠ 0)).find? (fun t => t < low || high < t) = none := by
    apply List.find?_eq_none.2
    intro t ht
    have hbounds := spans.targets t (NatSet.mem_ofList.2 ht)
    simp
    omega
  have hexpanded : ∀ n ∈ expandedRows (targetSet targets) low high, 1 ≤ n ∧ n ≤ l.size := by
    intro n hn
    have hbounds := spans.expanded_bounds hn
    omega
  obtain ⟨entries, hentries, hget⟩ := pathEntries_spec hexpanded (show low ≤ l.size by omega)
  have hfault := faultless_of_entries spans hget
  refine ⟨⟨⟨low, high, targetSet targets, entries⟩, hfault⟩, ?_, ⟨spans, rfl, rfl, rfl, hsize, hget⟩⟩
  rw [path, if_neg (by omega)]
  simp only [hinside]
  change (l.pathEntries (expandedRows (targetSet targets) low high) low >>= fun entries =>
    (Path.ofParts ⟨low, high, targetSet targets, entries⟩).mapError LedgerError.malformedPath) = _
  rw [hentries]
  change (Path.ofParts _).mapError LedgerError.malformedPath = _
  rw [Path.ofParts_of_faultless hfault]
  rfl

theorem path_cases (l : Ledger) (targets : List Nat) (low high : Nat) :
    ¬(1 ≤ high ∧ high ≤ l.size ∧ low ≤ high) ∨
      (∃ before t after, targets = before ++ t :: after ∧
        (∀ s ∈ before, s ≠ 0 → low ≤ s ∧ s ≤ high) ∧ t ≠ 0 ∧ ¬(low ≤ t ∧ t ≤ high)) ∨
      Spans (targetSet targets) low high ∧ high ≤ l.size := by
  by_cases hrange : 1 ≤ high ∧ high ≤ l.size ∧ low ≤ high
  · right
    cases hfound : targets.find? fun t => t ≠ 0 && !(low ≤ t && t ≤ high) with
    | some t =>
      left
      obtain ⟨ht, before, after, hsplit, hbefore⟩ := List.find?_eq_some_iff_append.1 hfound
      simp only [ne_eq, decide_not, Bool.and_eq_true, Bool.not_eq_true', decide_eq_false_iff_not,
        Bool.and_eq_false_iff] at ht
      refine ⟨before, t, after, hsplit, fun s hs hs0 => ?_, ht.1, by omega⟩
      have hin := hbefore s hs
      simp [hs0] at hin
      exact hin
    | none =>
      right
      refine ⟨⟨hrange.1, hrange.2.2, fun t ht => ?_⟩, hrange.2.1⟩
      rw [mem_targetSet] at ht
      have hin := List.find?_eq_none.1 hfound t ht.1
      simp [ht.2] at hin
      exact ⟨ht.2, hin⟩
  · exact .inl hrange

theorem path_eq_ok_iff {targets : List Nat} :
    l.path targets low high = .ok p ↔ Built l (targetSet targets) low high p := by
  constructor
  · intro h
    rcases path_cases l targets low high with hrange | ⟨before, t, after, rfl, hbefore, ht, hout⟩ |
      ⟨spans, hsize⟩
    · rw [path_of_range hrange] at h
      cases h
    · by_cases hrange : 1 ≤ high ∧ high ≤ l.size ∧ low ≤ high
      · rw [path_of_target hrange hbefore ht hout] at h
        cases h
      · rw [path_of_range hrange] at h
        cases h
    · obtain ⟨q, hq, hbuilt⟩ := path_of_spans spans hsize
      rw [hq] at h
      exact Except.ok.inj h ▸ hbuilt
  · intro h
    obtain ⟨q, hq, hbuilt⟩ := path_of_spans h.spans h.high_le
    have hentries : q.entries = p.entries := by
      apply NatMap.ext_get?
      intro n
      exact (hbuilt.entry?_eq n).trans (h.entry?_eq n).symm
    have hparts : q = p := by
      obtain ⟨⟨qlow, qhigh, qtargets, qentries⟩, _⟩ := q
      obtain ⟨⟨plow, phigh, ptargets, pentries⟩, _⟩ := p
      obtain ⟨_, rfl, rfl, rfl, _, _⟩ := h
      obtain ⟨_, rfl, rfl, rfl, _, _⟩ := hbuilt
      cases hentries
      rfl
    rw [hq, hparts]

theorem Built.congr {targets : NatSet} (h : Built l targets low high p) (hsize : high ≤ l'.size)
    (hrows : ∀ k ≤ high, l'.row? k = l.row? k) : Built l' targets low high p := by
  refine ⟨h.spans, h.low_eq, h.high_eq, h.targets_eq, hsize, fun n => ?_⟩
  rw [h.entry?_eq, builtEntry?_congr (fun m hm => (h.spans.expanded_bounds hm).2.1)
    h.spans.low_le hrows]

end Ledger

end SkipChain
