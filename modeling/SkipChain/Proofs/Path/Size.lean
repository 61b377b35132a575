import Mathlib.Algebra.Order.BigOperators.Group.List
import SkipChain.Proofs.Ledger.Inputs
import SkipChain.Proofs.Path.Completeness
import SkipChain.Proofs.Skip.Shortest
/-!
How large paths are. The descent from one stop to the next visits at most two rows for each bit of
the high row's number, and each of these links to at most one row for each bit; how far apart the
ends are does not matter.
-/
namespace SkipChain

theorem length_flatMap_le {α β : Type} {f : α → List β} {xs : List α} {k : Nat}
    (h : ∀ x ∈ xs, (f x).length ≤ k) : (xs.flatMap f).length ≤ xs.length * k := by
  have hsum := List.sum_le_card_nsmul (xs.map fun x => (f x).length) k (by simpa using h)
  rwa [List.length_map, smul_eq_mul, ← List.length_flatMap] at hsum

theorem Skip.length_references_le {row high : Nat} (h : row ≤ high) :
    (references row).length ≤ high.size := by
  by_cases hrow : row = 0
  · simp [references, referenceCount, hrow]
  · have hbits : level row < high.size := by
      refine (Nat.pow_lt_pow_iff_right (Nat.lt_succ_self 1)).1 ?_
      calc 2 ^ level row ≤ row := two_pow_le hrow (Nat.le_refl _)
        _ ≤ high := h
        _ < 2 ^ high.size := Nat.lt_size_self high
    rw [references_eq hrow, ← level_eq hrow, List.length_map, List.length_range]
    exact hbits

namespace Ledger

variable {l : Ledger} {targets : NatSet} {low high n : Nat} {p : Path}

def legs (targets : NatSet) (low high : Nat) : List (Nat × Nat) :=
  (stops targets low high).toList.zip (stops targets low high).toList.tail

theorem length_legs_le (targets : NatSet) (low high : Nat) :
    (legs targets low high).length ≤ targets.size + 1 := by
  have hstops : (stops targets low high).toList.length ≤ targets.size + 2 := by
    have hhigh := targets.size_insert_le high
    have hlow := (targets.insert high).size_insert_le (max low 1)
    change (stops targets low high).size ≤ (targets.insert high).size + 1 at hlow
    rw [NatSet.size] at hlow
    omega
  rw [legs, List.length_zip, List.length_tail]
  omega

/-- The rows that the way from one stop to the next visits, each with the rows that it links to. -/
def legRows (leg : Nat × Nat) : List Nat :=
  (Skip.descent leg.2 leg.1).flatMap fun n => n :: Skip.references n

theorem length_legRows_le (spans : Spans targets low high) {leg : Nat × Nat}
    (hleg : leg ∈ legs targets low high) :
    (legRows leg).length ≤ 2 * high.size * (high.size + 1) := by
  have hupper : leg.2 ≤ high := (spans.stop_bounds (Leg.spec hleg).2.1).2
  have hvisited : (Skip.descent leg.2 leg.1).length ≤ 2 * high.size :=
    (Skip.length_descent_le leg.2 leg.1).trans (Nat.mul_le_mul_left 2 (Nat.size_le_size hupper))
  refine (length_flatMap_le fun n hn => ?_).trans (Nat.mul_le_mul_right _ hvisited)
  have hn := (Skip.descent_bounds hn).2
  exact Nat.succ_le_succ (Skip.length_references_le (hn.trans hupper))

theorem Built.keys_subset (built : Built l targets low high p) :
    p.entries.keys ⊆ max low 1 :: (legs targets low high).flatMap legRows := by
  have hleg : ∀ m lower upper, Leg targets low high lower upper → m ∈ Skip.descent upper lower →
      m :: Skip.references m ⊆ (legs targets low high).flatMap legRows := by
    intro m lower upper hleg hm r hr
    exact List.mem_flatMap.2 ⟨(lower, upper), hleg, List.mem_flatMap.2 ⟨m, hm, hr⟩⟩
  intro n hn
  have hcontains : p.contains n := Path.contains_iff.2 (NatMap.mem_keys.1 hn)
  rcases built.contains_iff.1 hcontains with hn | ⟨hn0, rfl | ⟨m, hm, hlink⟩⟩
  · rcases mem_expandedRows.1 hn with ⟨lower, upper, h, hvisited⟩ | ⟨rfl, rfl⟩
    · exact List.mem_cons_of_mem _ (hleg n lower upper h hvisited List.mem_cons_self)
    · exact List.mem_cons_self
  · rw [Nat.max_eq_left (Nat.pos_of_ne_zero hn0)]
    exact List.mem_cons_self
  · rcases mem_expandedRows.1 hm with ⟨lower, upper, h, hvisited⟩ | ⟨-, rfl⟩
    · exact List.mem_cons_of_mem _ (hleg m lower upper h hvisited (List.mem_cons_of_mem _ hlink))
    · -- row 1 links to row 0 alone
      have hbelow := Skip.lt_of_mem_references hlink
      omega

theorem Built.size_le (built : Built l targets low high p) :
    p.size ≤ (targets.size + 1) * (2 * high.size * (high.size + 1)) + 1 := by
  calc p.size ≤ ((legs targets low high).flatMap legRows).length + 1 :=
        NatMap.size_le_of_keys_subset built.keys_subset
    _ ≤ (legs targets low high).length * (2 * high.size * (high.size + 1)) + 1 :=
        Nat.succ_le_succ (length_flatMap_le fun leg => length_legRows_le built.spans)
    _ ≤ (targets.size + 1) * (2 * high.size * (high.size + 1)) + 1 :=
        Nat.succ_le_succ (Nat.mul_le_mul_right _ (length_legs_le targets low high))

/-- A path has at most as many entries as the square of the bits of its high row's number allows,
for each of its targets and once more; row 0 and repeated targets do not count. -/
theorem path_size_le {wanted : List Nat} (hp : l.path wanted low high = .ok p) :
    let distinct := (wanted.filter (· ≠ 0)).dedup.length
    let bits := high.size
    p.size ≤ (distinct + 1) * (2 * bits) * (bits + 1) + 1 := by
  intro distinct bits
  have hsize := (path_eq_ok_iff.1 hp).size_le
  rwa [targetSet, NatSet.size_ofList, ← Nat.mul_assoc] at hsize

def manyRows : Ledger := .ofInputs .sha256 (List.replicate (2 ^ 20) (.filled 1))

theorem path_size_le_manyRows :
    ∃ p, manyRows.path [3, 0, 3] 0 (2 ^ 20) = .ok p ∧ p.size ≤ 1849 := by
  have hsize : manyRows.size = 2 ^ 20 := (size_ofInputs _ _).trans List.length_replicate
  have spans : Spans (targetSet [3, 0, 3]) 0 (2 ^ 20) := by
    refine ⟨by decide, by decide, fun t ht => ?_⟩
    simp only [mem_targetSet, List.mem_cons, List.not_mem_nil, or_false] at ht
    omega
  obtain ⟨p, hp, -⟩ := path_of_spans spans (Nat.le_of_eq hsize.symm)
  have hbound := path_size_le hp
  have hbits : (2 ^ 20).size = 21 := Nat.size_pow
  rw [hbits] at hbound
  exact ⟨p, hp, hbound⟩

end Ledger

end SkipChain
