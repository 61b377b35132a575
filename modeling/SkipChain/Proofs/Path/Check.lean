import Mathlib.Logic.Basic
import SkipChain.Path.Verify
/-!
What the check of a path accepts, without the order in which it looks for flaws: the links of the
expanded rows hold, every row hangs below the high row, and the row asked for has its hash.
-/
namespace SkipChain

private theorem ite_some_eq_none {α : Type} {c : Prop} [Decidable c] {a : α} {o : Option α} :
    (if c then some a else o) = none ↔ ¬c ∧ o = none := by
  split <;> simp [*]

theorem PathParts.fault?_eq_none_iff {p : PathParts} :
    p.fault? = none ↔
      (p.high ≠ 0 ∧ p.low ≤ p.high) ∧
      (∀ t ∈ p.targets, p.low ≤ t ∧ t ≤ p.high ∧ t ≠ 0) ∧
      (∀ n e, p.entries.get? n = some e → n ≠ 0 ∧ n ≤ p.high) ∧
      ∀ e, p.entries.get? p.high = some e → e.isExpanded ∨ p.low = p.high := by
  unfold fault?
  rw [ite_some_eq_none, ite_some_eq_none, ite_some_eq_none, ite_some_eq_none]
  refine and_congr (by omega) (and_congr ?_ (and_congr ?_ ?_))
  · simp [NatSet.mem_def, not_or, and_assoc]
  · simp only [List.any_eq_true, NatMap.mem_keys, Bool.or_eq_true, beq_iff_eq, decide_eq_true_eq,
      not_exists, not_and, not_or, Nat.not_lt]
    exact ⟨fun h n e he => h n ⟨e, he⟩, fun h n ⟨e, he⟩ => h n e he⟩
  · simp only [Bool.and_eq_true, Option.any_eq_true, Bool.not_eq_true', bne_iff_ne, and_true]
    grind

namespace Path

theorem ofParts_of_faultless {parts : PathParts} (h : parts.fault? = none) :
    ofParts parts = .ok ⟨parts, h⟩ := by
  unfold ofParts
  split
  · next fault hfault =>
    rw [h] at hfault
    cases hfault
  · rfl

variable {H : Hash} {p : Path} {n : Nat} {e : PathEntry}

theorem entry_bounds (h : p.entry? n = some e) : n ≠ 0 ∧ n ≤ p.high :=
  (PathParts.fault?_eq_none_iff.1 p.faultless).2.2.1 n e h

theorem contains_iff : p.contains n ↔ ∃ e, p.entry? n = some e := NatMap.contains_iff

theorem hash?_eq_some_iff {hash : Digest} :
    p.hash? n = some hash ↔ ∃ e, p.entry? n = some e ∧ e.hash = hash := Option.map_eq_some_iff

theorem hash?_of_entry (h : p.entry? n = some e) : p.hash? n = some e.hash := by
  rw [hash?, h, Option.map_some]

theorem contains_of_hash? {hash : Digest} (h : p.hash? n = some hash) : p.contains n := by
  obtain ⟨e, he, _⟩ := hash?_eq_some_iff.1 h
  exact contains_iff.2 ⟨e, he⟩

theorem isExpanded_iff :
    p.isExpanded n ↔ ∃ e input, p.entry? n = some e ∧ e.input = some input := by
  simp [isExpanded, PathEntry.isExpanded, Option.any_eq_true, Option.isSome_iff_exists]

theorem contains_of_isExpanded (h : p.isExpanded n) : p.contains n := by
  obtain ⟨e, _, he, _⟩ := isExpanded_iff.1 h
  exact contains_iff.2 ⟨e, he⟩

/-- The rows that an expanded row links to are all recorded, and their hashes give its own. -/
def LinksHold (H : Hash) (p : Path) : Prop :=
  ∀ n e input, p.entry? n = some e → e.input = some input →
    (∀ r ∈ Skip.references n, r ≠ 0 → p.contains r) ∧
      H.link input ((Skip.references n).map p.referenceHash) = e.hash

/-- The ends and the targets are recorded, and every row but the high one is linked to from an
expanded row. -/
def Rooted (p : Path) : Prop :=
  (∀ r ∈ p.required, p.contains r) ∧
    ∀ n, p.contains n → n ≠ p.high → ∃ m, p.isExpanded m ∧ n ∈ Skip.references m

theorem entryFlaw?_eq_none_iff :
    p.entryFlaw? H n e = none ↔ ∀ input, e.input = some input →
      (∀ r ∈ Skip.references n, r ≠ 0 → p.contains r) ∧
        H.link input ((Skip.references n).map p.referenceHash) = e.hash := by
  unfold entryFlaw?
  cases hinput : e.input with
  | none => simp
  | some input =>
    simp only [Option.some.injEq, forall_eq']
    cases hmissing : (Skip.references n).find? fun r => r ≠ 0 && !p.contains r with
    | some missing =>
      have hmem := List.mem_of_find?_eq_some hmissing
      have hfound := List.find?_some hmissing
      simp only [ne_eq, decide_not, Bool.and_eq_true, Bool.not_eq_true', decide_eq_false_iff_not]
        at hfound
      simp only [reduceCtorEq, false_iff, not_and]
      intro hall
      exact absurd (hall missing hmem hfound.1) (by simp [hfound.2])
    | none =>
      have hall : ∀ r ∈ Skip.references n, r ≠ 0 → p.contains r := by
        simpa using hmissing
      simp only [ite_eq_left_iff, reduceCtorEq, imp_false, not_not]
      exact ⟨fun h => ⟨hall, h⟩, fun h => h.2⟩

theorem linkFlaw?_eq_none_iff : p.linkFlaw? H = none ↔ p.LinksHold H := by
  simp only [linkFlaw?, List.findSome?_eq_none_iff, Prod.forall, NatMap.mem_toList_iff,
    entryFlaw?_eq_none_iff]
  exact forall₂_congr fun n e => forall_comm

theorem mem_referenced : n ∈ p.referenced ↔ ∃ m, p.isExpanded m ∧ n ∈ Skip.references m := by
  simp only [referenced, List.mem_flatMap, List.mem_filter, Prod.exists, NatMap.mem_toList_iff,
    isExpanded, entry?, Option.any_eq_true]
  exact ⟨fun ⟨m, e, he, hn⟩ => ⟨m, ⟨e, he⟩, hn⟩, fun ⟨m, ⟨e, he⟩, hn⟩ => ⟨m, e, he, hn⟩⟩

theorem rootFlaw?_eq_none_iff : p.rootFlaw? = none ↔ p.Rooted := by
  unfold rootFlaw? Rooted
  cases hmissing : p.required.find? fun r => !p.contains r with
  | some missing =>
    have hmem := List.mem_of_find?_eq_some hmissing
    have hfound := List.find?_some hmissing
    simp only [reduceCtorEq, false_iff, not_and]
    intro hall
    simp [hall missing hmem] at hfound
  | none =>
    have hall : ∀ r ∈ p.required, p.contains r := by
      simpa using hmissing
    have hkeys : ∀ r, r ∈ p.entries.keys ↔ p.contains r := fun r => by
      rw [NatMap.mem_keys, contains_iff]
      rfl
    simp only [Option.map_eq_none_iff, List.find?_eq_none, hkeys, Bool.and_eq_true,
      decide_eq_true_eq, Bool.not_eq_true', List.contains_eq_mem, decide_eq_false_iff_not,
      mem_referenced, not_and, not_not]
    exact ⟨fun h => ⟨hall, h⟩, fun h => h.2⟩

theorem verify_eq_ok_iff {hash : Digest} :
    p.verify H hash n = .ok () ↔ p.LinksHold H ∧ p.hash? n = some hash ∧ p.Rooted := by
  rw [← linkFlaw?_eq_none_iff, ← rootFlaw?_eq_none_iff]
  unfold verify
  cases p.linkFlaw? H with
  | some flaw => simp
  | none =>
    cases p.hash? n with
    | none => simp
    | some found =>
      by_cases hfound : found = hash
      · cases p.rootFlaw? <;> simp [hfound]
      · simp [hfound]

end Path

end SkipChain
