import SkipChain.Path.Build
/-!
The rows on the way down. A descent takes the links that the rows have, so of the rows that it comes
through only the highest is not linked to from one before; and strung over the stops of a path, the
descents meet every stop.
-/
namespace SkipChain

namespace Skip

variable {high low row n : Nat}

theorem sub_one_mem_references (h : row ≠ 0) : row - 1 ∈ references row :=
  List.mem_map.2 ⟨0, by simp [referenceCount, h], by simp⟩

theorem hop_spec (h : low < row) : hop row low ∈ references row ∧ low ≤ hop row low := by
  unfold hop
  cases hfound : (references row).reverse.find? (low ≤ ·) with
  | none =>
    have hall := List.find?_eq_none.1 hfound (row - 1)
      (List.mem_reverse.2 (sub_one_mem_references (by omega)))
    simp only [decide_eq_true_eq] at hall
    omega
  | some r =>
    have hmem := List.mem_of_find?_eq_some hfound
    have hlow := List.find?_some hfound
    simp only [decide_eq_true_eq] at hlow
    exact ⟨List.mem_reverse.1 hmem, hlow⟩

theorem hop_lt (h : low < row) : hop row low < row := lt_of_mem_references (hop_spec h).1

theorem descentWithin_eq {fuel fuel' : Nat} (h : row ≤ fuel) (h' : row ≤ fuel') :
    descentWithin fuel row low = descentWithin fuel' row low := by
  induction fuel generalizing fuel' row with
  | zero =>
    obtain rfl : row = 0 := by omega
    cases fuel' <;> simp [descentWithin]
  | succ fuel ih =>
    cases fuel' with
    | zero =>
      obtain rfl : row = 0 := by omega
      simp [descentWithin]
    | succ fuel' =>
      unfold descentWithin
      split
      · rfl
      · next hlow =>
        have hhop := hop_lt (Nat.not_le.1 hlow)
        have hrest : descentWithin fuel (hop row low) low = descentWithin fuel' (hop row low) low :=
          ih (by omega) (by omega)
        rw [hrest]

theorem descent_of_le (h : high ≤ low) : descent high low = [] := by
  unfold descent
  cases high <;> simp [descentWithin, h]

theorem descent_of_lt (h : low < high) : descent high low = high :: descent (hop high low) low := by
  have hhop := hop_lt h
  unfold descent
  cases high with
  | zero => omega
  | succ high =>
    rw [descentWithin, if_neg (by omega), descentWithin_eq (by omega) (Nat.le_refl _)]

theorem descent_induct (low : Nat) {motive : Nat → Prop} (stop : ∀ row ≤ low, motive row)
    (next : ∀ row, low < row → motive (hop row low) → motive row) (high : Nat) : motive high := by
  induction high using Nat.strongRecOn with
  | ind row ih =>
    by_cases hlow : low < row
    · exact next row hlow (ih _ (hop_lt hlow))
    · exact stop row (Nat.not_lt.1 hlow)

theorem descent_bounds (h : n ∈ descent high low) : low < n ∧ n ≤ high := by
  induction high using descent_induct low with
  | stop row hlow =>
    rw [descent_of_le hlow] at h
    cases h
  | next row hlow ih =>
    have hhop := hop_lt hlow
    rw [descent_of_lt hlow] at h
    rcases List.mem_cons.1 h with rfl | h
    · omega
    · have hrest := ih h
      omega

theorem mem_descent_high (h : low < high) : high ∈ descent high low := by
  rw [descent_of_lt h]
  exact List.mem_cons_self

theorem exists_reference_of_descent (hlow : low < high)
    (h : n = low ∨ n ∈ descent high low ∧ n ≠ high) :
    ∃ m ∈ descent high low, n ∈ references m := by
  induction high using Nat.strongRecOn with
  | ind high ih =>
    obtain ⟨hlink, hle⟩ := hop_spec hlow
    rw [descent_of_lt hlow] at h ⊢
    by_cases hnext : n = hop high low
    · exact ⟨high, List.mem_cons_self, hnext ▸ hlink⟩
    · have hbelow : low < hop high low := by
        rcases h with rfl | ⟨hmem, hne⟩
        · omega
        · have hrest := descent_bounds ((List.mem_cons.1 hmem).resolve_left hne)
          omega
      obtain ⟨m, hm, hn⟩ := ih _ (hop_lt hlow) hbelow
        (h.imp id fun hmem => ⟨(List.mem_cons.1 hmem.1).resolve_left hmem.2, hnext⟩)
      exact ⟨m, List.mem_cons_of_mem _ hm, hn⟩

end Skip

section Neighbours

variable {ss : List Nat} {s t : Nat}

theorem neighbours_spec (ascending : ss.Pairwise (· < ·)) (h : (s, t) ∈ ss.zip ss.tail) :
    s ∈ ss ∧ t ∈ ss ∧ s < t := by
  induction ss with
  | nil => simp at h
  | cons a rest ih =>
    cases rest with
    | nil => simp at h
    | cons b rest =>
      obtain ⟨hfirst, hrest⟩ := List.pairwise_cons.1 ascending
      simp only [List.tail_cons, List.zip_cons_cons, List.mem_cons, Prod.mk.injEq] at h
      rcases h with ⟨rfl, rfl⟩ | h
      · exact ⟨by simp, by simp, hfirst t List.mem_cons_self⟩
      · obtain ⟨hs, ht, hlt⟩ := ih hrest h
        exact ⟨List.mem_cons_of_mem _ hs, List.mem_cons_of_mem _ ht, hlt⟩

theorem exists_upper_neighbour (ascending : ss.Pairwise (· < ·)) (hs : s ∈ ss) (ht : t ∈ ss)
    (hlt : s < t) : ∃ upper, (s, upper) ∈ ss.zip ss.tail := by
  induction ss with
  | nil => simp at hs
  | cons a rest ih =>
    obtain ⟨hfirst, hrest⟩ := List.pairwise_cons.1 ascending
    have htrest : t ∈ rest := by
      rcases List.mem_cons.1 ht with rfl | ht
      · rcases List.mem_cons.1 hs with rfl | hs
        · omega
        · have := hfirst s hs
          omega
      · exact ht
    cases rest with
    | nil => simp at htrest
    | cons b rest =>
      rcases List.mem_cons.1 hs with rfl | hs
      · exact ⟨b, List.mem_cons_self⟩
      · obtain ⟨upper, hupper⟩ := ih hrest hs htrest
        exact ⟨upper, List.mem_cons_of_mem _ hupper⟩

theorem exists_lower_neighbour (ascending : ss.Pairwise (· < ·)) (hs : s ∈ ss) (ht : t ∈ ss)
    (hlt : t < s) : ∃ lower, (lower, s) ∈ ss.zip ss.tail := by
  induction ss generalizing t with
  | nil => simp at hs
  | cons a rest ih =>
    obtain ⟨hfirst, hrest⟩ := List.pairwise_cons.1 ascending
    have hsrest : s ∈ rest := by
      rcases List.mem_cons.1 hs with rfl | hs
      · rcases List.mem_cons.1 ht with rfl | ht
        · omega
        · have := hfirst t ht
          omega
      · exact hs
    cases rest with
    | nil => simp at hsrest
    | cons b rest =>
      rcases List.mem_cons.1 hsrest with rfl | hs
      · exact ⟨a, List.mem_cons_self⟩
      · have hb := (List.pairwise_cons.1 hrest).1 s hs
        obtain ⟨lower, hlower⟩ := ih hrest hsrest List.mem_cons_self hb
        exact ⟨lower, List.mem_cons_of_mem _ hlower⟩

theorem le_lower_neighbour {r : Nat} (ascending : ss.Pairwise (· < ·))
    (h : (s, t) ∈ ss.zip ss.tail) (hr : r ∈ ss) (hlt : r < t) : r ≤ s := by
  induction ss with
  | nil => simp at hr
  | cons a rest ih =>
    obtain ⟨hfirst, hrest⟩ := List.pairwise_cons.1 ascending
    cases rest with
    | nil => simp at h
    | cons b rest =>
      simp only [List.tail_cons, List.zip_cons_cons, List.mem_cons, Prod.mk.injEq] at h
      rcases h with ⟨rfl, rfl⟩ | h
      · rcases List.mem_cons.1 hr with rfl | hr
        · exact Nat.le_refl r
        · rcases List.mem_cons.1 hr with rfl | hr
          · omega
          · have := (List.pairwise_cons.1 hrest).1 r hr
            omega
      · rcases List.mem_cons.1 hr with rfl | hr
        · exact Nat.le_of_lt (hfirst s (neighbours_spec hrest h).1)
        · exact ih hrest h hr

end Neighbours

namespace Ledger

variable {targets : NatSet} {low high n : Nat}

theorem mem_stops : n ∈ stops targets low high ↔ n = max low 1 ∨ n = high ∨ n ∈ targets := by
  simp [stops]

def Leg (targets : NatSet) (low high lower upper : Nat) : Prop :=
  (lower, upper) ∈ (stops targets low high).toList.zip (stops targets low high).toList.tail

theorem Leg.spec {lower upper : Nat} (h : Leg targets low high lower upper) :
    lower ∈ stops targets low high ∧ upper ∈ stops targets low high ∧ lower < upper :=
  neighbours_spec (stops targets low high).ascending h

theorem mem_expandedRows :
    n ∈ expandedRows targets low high ↔
      (∃ lower upper, Leg targets low high lower upper ∧ n ∈ Skip.descent upper lower) ∨
        low = 0 ∧ n = 1 := by
  have hvisited : ∀ rows : List Nat, n ∈ NatSet.ofList rows ↔ n ∈ rows := fun rows =>
    NatSet.mem_ofList
  unfold expandedRows Leg
  by_cases hlow : low = 0
  · simp [hlow, hvisited, or_comm]
  · simp [hlow, hvisited]

theorem stop_expanded (h : n ∈ stops targets low high) (hn : max low 1 < n) :
    n ∈ expandedRows targets low high := by
  obtain ⟨lower, hleg⟩ : ∃ lower, Leg targets low high lower n :=
    exists_lower_neighbour (stops targets low high).ascending h (mem_stops.2 (.inl rfl)) hn
  exact mem_expandedRows.2 (.inl ⟨lower, n, hleg, Skip.mem_descent_high hleg.spec.2.2⟩)

/-- A range with targets in it that a path can be built for, if the ledger is long enough. -/
structure Spans (targets : NatSet) (low high : Nat) : Prop where
  high_pos : 1 ≤ high
  low_le : low ≤ high
  targets : ∀ t ∈ targets, t ≠ 0 ∧ low ≤ t ∧ t ≤ high

namespace Spans

variable (spans : Spans targets low high)
include spans

theorem stop_bounds (h : n ∈ stops targets low high) : max low 1 ≤ n ∧ n ≤ high := by
  have hpos := spans.high_pos
  have hle := spans.low_le
  rcases mem_stops.1 h with rfl | rfl | h
  · omega
  · omega
  · have ht := spans.targets n h
    omega

theorem expanded_bounds (h : n ∈ expandedRows targets low high) :
    1 ≤ n ∧ n ≤ high ∧ (low < n ∨ low = 0) := by
  have hpos := spans.high_pos
  rcases mem_expandedRows.1 h with ⟨lower, upper, hleg, hn⟩ | ⟨hlow, rfl⟩
  · obtain ⟨hlower, hupper, _⟩ := hleg.spec
    have h1 := spans.stop_bounds hlower
    have h2 := spans.stop_bounds hupper
    have h3 := Skip.descent_bounds hn
    omega
  · omega

theorem stop_referenced (h : n ∈ stops targets low high) (hn : n ≠ high) :
    ∃ m ∈ expandedRows targets low high, n ∈ Skip.references m := by
  have hlt : n < high := by
    have := spans.stop_bounds h
    omega
  obtain ⟨upper, hleg⟩ : ∃ upper, Leg targets low high n upper :=
    exists_upper_neighbour (stops targets low high).ascending h (mem_stops.2 (.inr (.inl rfl))) hlt
  obtain ⟨m, hm, hlink⟩ :=
    Skip.exists_reference_of_descent hleg.spec.2.2 (.inl rfl)
  exact ⟨m, mem_expandedRows.2 (.inl ⟨n, upper, hleg, hm⟩), hlink⟩

theorem expanded_referenced (h : n ∈ expandedRows targets low high) (hn : n ≠ high) :
    ∃ m ∈ expandedRows targets low high, n ∈ Skip.references m := by
  rcases mem_expandedRows.1 h with ⟨lower, upper, hleg, hmem⟩ | ⟨hlow, rfl⟩
  · by_cases hstop : n = upper
    · subst hstop
      exact spans.stop_referenced hleg.spec.2.1 hn
    · obtain ⟨m, hm, hlink⟩ :=
        Skip.exists_reference_of_descent hleg.spec.2.2 (.inr ⟨hmem, hstop⟩)
      exact ⟨m, mem_expandedRows.2 (.inl ⟨lower, upper, hleg, hm⟩), hlink⟩
  · exact spans.stop_referenced (mem_stops.2 (.inl (by omega))) hn

end Spans

end Ledger

end SkipChain
