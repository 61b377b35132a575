import Mathlib.NumberTheory.Padics.PadicVal.Basic
import SkipChain.Skip
import SkipChain.Word
/-!
The links of a row, told by the powers of two that divide its number.
-/
namespace SkipChain.Skip

variable {row : Nat}

theorem halvings_eq {fuel n : Nat} (hpos : n ≠ 0) (hfuel : n ≤ fuel) :
    halvings fuel n = padicValNat 2 n := by
  induction fuel generalizing n with
  | zero => omega
  | succ fuel ih =>
    rw [halvings]
    split
    · next hodd =>
      rw [padicValNat.eq_zero_of_not_dvd (by omega)]
    · next heven =>
      have hdvd : 2 ∣ n := by omega
      have hval : padicValNat 2 n ≠ 0 := (dvd_iff_padicValNat_ne_zero hpos).1 hdvd
      rw [ih (by omega) (by omega), padicValNat.div hdvd]
      omega

theorem level_eq (h : row ≠ 0) : level row = padicValNat 2 row := by
  rw [level, if_neg h, halvings_eq h (Nat.le_refl row)]

theorem references_eq (h : row ≠ 0) :
    references row = (List.range (padicValNat 2 row + 1)).map (row - 2 ^ ·) := by
  simp only [references, referenceCount, if_neg h, level_eq h, Nat.one_shiftLeft]

example : references 8 = [7, 6, 4, 0] := by decide

theorem mem_references_iff {r : Nat} :
    r ∈ references row ↔ row ≠ 0 ∧ ∃ k, 2 ^ k ∣ row ∧ r = row - 2 ^ k := by
  by_cases h : row = 0
  · simp [h, references, referenceCount]
  · rw [references_eq h, List.mem_map]
    simp only [List.mem_range, Nat.lt_succ_iff, ← padicValNat_dvd_iff_le h, h, ne_eq,
      not_false_eq_true, true_and, eq_comm]

theorem two_pow_dvd_iff {k : Nat} (h : row ≠ 0) : 2 ^ k ∣ row ↔ k ≤ level row := by
  rw [level_eq h, padicValNat_dvd_iff_le h]

theorem two_pow_le {k : Nat} (h : row ≠ 0) (hk : k ≤ level row) : 2 ^ k ≤ row :=
  Nat.le_of_dvd (Nat.pos_of_ne_zero h) ((two_pow_dvd_iff h).2 hk)

theorem level_lt (h : row < Word.count64) : level row < 64 := by
  by_cases hrow : row = 0
  · simp [level, hrow]
  · have hle := two_pow_le hrow (Nat.le_refl (level row))
    exact (Nat.pow_lt_pow_iff_right (by decide)).1 (Nat.lt_of_le_of_lt hle h)

/-- Links are nested: one from a row that another link passes over does not lead below that link's
end. -/
theorem le_of_passed_over {a b c d : Nat} (hc : c ∈ references a) (hd : d ∈ references b)
    (hcb : c < b) (hba : b < a) : c ≤ d := by
  obtain ⟨-, k, hka, rfl⟩ := mem_references_iff.1 hc
  obtain ⟨hb, j, hjb, rfl⟩ := mem_references_iff.1 hd
  have hle : 2 ^ k ≤ a := Nat.le_of_dvd (by omega) hka
  have hkc : 2 ^ k ∣ a - 2 ^ k := Nat.dvd_sub hka (dvd_refl _)
  obtain ⟨x, rfl⟩ := Nat.exists_eq_add_of_lt hcb
  -- `b` stands within the block of `2 ^ k` rows above `c`, so its own power is a smaller one
  have hjk : 2 ^ j ∣ 2 ^ k := by
    apply Nat.pow_dvd_pow
    by_contra hkj
    have hdvd : 2 ^ k ∣ x + 1 := by
      have := (Nat.pow_dvd_pow 2 (Nat.le_of_not_le hkj)).trans hjb
      rwa [Nat.add_assoc, ← Nat.dvd_add_iff_right hkc] at this
    have := Nat.le_of_dvd (Nat.succ_pos x) hdvd
    omega
  rw [Nat.add_assoc, ← Nat.dvd_add_iff_right (hjk.trans hkc)] at hjb
  have := Nat.le_of_dvd (Nat.succ_pos x) hjb
  omega

end SkipChain.Skip
