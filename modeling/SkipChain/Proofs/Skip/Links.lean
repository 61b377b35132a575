import Mathlib.Data.Nat.Bitwise
import SkipChain.Proofs.Skip.Shortest
import SkipChain.Skip.Links
/-!
The links of a row as they are handed out. A row of 64 bits has one link more than zeros at its end,
the last of them to the row without its lowest bit, and at every time it is told exactly how many
are left. No link crosses another.
-/
namespace SkipChain

theorem two_pow_dvd_iff_testBit {n k : Nat} : 2 ^ k ∣ n ↔ ∀ j < k, n.testBit j = false := by
  rw [Nat.dvd_iff_mod_eq_zero]
  constructor
  · intro h j hj
    have hbit := Nat.testBit_mod_two_pow n k j
    rw [h, Nat.zero_testBit, decide_eq_true hj, Bool.true_and] at hbit
    exact hbit.symm
  · intro h
    apply Nat.eq_of_testBit_eq
    intro j
    rw [Nat.testBit_mod_two_pow, Nat.zero_testBit]
    by_cases hj : j < k
    · rw [h j hj, Bool.and_false]
    · rw [decide_eq_false hj, Bool.false_and]

namespace Skip

variable {row : Nat}

theorem length_references (row : Nat) : (references row).length = referenceCount row := by
  simp [references]

theorem lt_referenceCount_iff {k : Nat} : k < referenceCount row ↔ row ≠ 0 ∧ k ≤ level row := by
  by_cases hrow : row = 0 <;> simp [referenceCount, hrow]

theorem referenceCount_le (h : row < Word.count64) : referenceCount row ≤ 64 := by
  unfold referenceCount
  split
  · exact Nat.zero_le 64
  · exact level_lt h

theorem getElem?_references {k : Nat} (hrow : row ≠ 0) (hk : k ≤ level row) :
    (references row)[k]? = some (row - 2 ^ k) := by
  simp [references, referenceCount, hrow, Nat.lt_succ_of_le hk, Nat.one_shiftLeft]

theorem level_eq_ctz {row : UInt64} (h : row ≠ 0) : level row.toNat = row.toBitVec.ctz.toNat := by
  have hrow : row.toNat ≠ 0 := fun hzero => h (UInt64.toNat_inj.1 hzero)
  have hbits : row.toBitVec ≠ 0#64 := fun hzero => h (UInt64.toBitVec_inj.1 hzero)
  apply Nat.le_antisymm
  · by_contra hlong
    have hdvd := (two_pow_dvd_iff hrow).2 (Nat.not_le.1 hlong)
    have hclear := two_pow_dvd_iff_testBit.1 hdvd _ (Nat.lt_succ_self _)
    have hset := BitVec.getLsbD_true_ctz_of_ne_zero hbits
    rw [← BitVec.testBit_toNat, UInt64.toNat_toBitVec, hclear] at hset
    cases hset
  · apply (two_pow_dvd_iff hrow).1
    apply two_pow_dvd_iff_testBit.2
    intro j hj
    rw [← UInt64.toNat_toBitVec, BitVec.testBit_toNat]
    exact BitVec.getLsbD_false_of_lt_ctz hj

theorem testBit_sub_lowest (hrow : row ≠ 0) (j : Nat) :
    (row - 2 ^ level row).testBit j = (row.testBit j && j != level row) := by
  have hdvd : 2 ^ level row ∣ row := (two_pow_dvd_iff hrow).2 (Nat.le_refl _)
  have hlongest : ¬2 ^ (level row + 1) ∣ row := fun hlonger =>
    Nat.not_succ_le_self _ ((two_pow_dvd_iff hrow).1 hlonger)
  obtain ⟨m, hm⟩ := two_pow_succ_dvd_sub hdvd hlongest
  have hsplit : row = 2 ^ (level row + 1) * m + 2 ^ level row := by
    have hle := two_pow_le hrow (Nat.le_refl _)
    omega
  have hlow : 2 ^ level row < 2 ^ (level row + 1) := Nat.pow_lt_pow_succ (by decide)
  have hbit : row.testBit j =
      if j < level row + 1 then decide (level row = j) else m.testBit (j - (level row + 1)) := by
    conv => lhs; rw [hsplit]
    rw [Nat.testBit_two_pow_mul_add m hlow, Nat.testBit_two_pow]
  rw [hm, hbit, Nat.testBit_two_pow_mul]
  by_cases hj : j < level row + 1
  · -- of the bits up to the lowest one only this is set, and it is gone
    by_cases hlowest : j = level row
    · simp [hlowest]
    · have hne : level row ≠ j := fun heq => hlowest heq.symm
      simp [hj, hne, Nat.not_le.2 hj]
  · have hne : j ≠ level row := by omega
    simp [hj, hne, Nat.not_lt.1 hj]

end Skip

namespace Checked

variable {row : Nat}

theorem referenceCount_eq (h : row < Word.count64) :
    referenceCount row = some (Skip.referenceCount row) := by
  have hlevel := Skip.level_lt h
  unfold referenceCount Skip.referenceCount
  split
  · rfl
  · rw [Word.add?, if_pos (by simp only [Word.count64]; omega)]

def Links.after (row n : Nat) : Links :=
  ⟨row, min n (Skip.referenceCount row), Skip.referenceCount row⟩

namespace Links

theorem start_eq (h : row < Word.count64) : start row = some (after row 0) := by
  have hcount := Skip.referenceCount_le h
  have hfits : Skip.referenceCount row % Word.count32 = Skip.referenceCount row :=
    Nat.mod_eq_of_lt (Nat.lt_of_le_of_lt hcount (by decide))
  simp [start, referenceCount_eq h, hfits, after]

theorem next_after (h : row < Word.count64) (n : Nat) :
    (after row n).next = some ((Skip.references row)[n]?, after row (n + 1)) := by
  have hcount := Skip.referenceCount_le h
  by_cases hn : n < Skip.referenceCount row
  · obtain ⟨hrow, hlevel⟩ := Skip.lt_referenceCount_iff.1 hn
    have hlink := linkAt_eq h hrow hlevel
    have hstep : Word.add? Word.count32 n 1 = some (n + 1) :=
      if_pos (Nat.lt_of_le_of_lt (Nat.le_trans hn hcount) (by decide))
    have hnow : min n (Skip.referenceCount row) = n := Nat.min_eq_left (Nat.le_of_lt hn)
    have hthen : min (n + 1) (Skip.referenceCount row) = n + 1 := Nat.min_eq_left hn
    simp [next, after, hnow, hthen, Nat.not_le.2 hn, hlink, hstep,
      Skip.getElem?_references hrow hlevel]
  · have hdone := Nat.not_lt.1 hn
    have hnow : min n (Skip.referenceCount row) = Skip.referenceCount row :=
      Nat.min_eq_right hdone
    have hthen : min (n + 1) (Skip.referenceCount row) = Skip.referenceCount row :=
      Nat.min_eq_right (Nat.le_succ_of_le hdone)
    have hnone : (Skip.references row)[n]? = none :=
      List.getElem?_eq_none (by rwa [Skip.length_references])
    simp [next, after, hnow, hthen, hnone]

theorem ask_after (h : row < Word.count64) (n k : Nat) :
    ask k (after row n) =
      some ((List.range' n k).map ((Skip.references row)[·]?), after row (n + k)) := by
  induction k generalizing n with
  | zero => rfl
  | succ k ih =>
    have hnext : n + 1 + k = n + (k + 1) := by omega
    simp only [ask, next_after h, ih (n + 1), hnext, List.range'_succ, List.map_cons,
      Option.bind_eq_bind, Option.bind_some, Option.pure_def]

theorem sizeHint_after (row n : Nat) : (after row n).sizeHint =
    some (((Skip.references row).drop n).length, some ((Skip.references row).drop n).length) := by
  have hleft : Skip.referenceCount row - min n (Skip.referenceCount row) =
      Skip.referenceCount row - n := by omega
  simp [sizeHint, after, Word.sub?, hleft, Skip.length_references]

end Links

end Checked

namespace Skip

/-- How a row that ends in `zeros` zeros hands out its links. Asked any number of times, it answers
with the links one after the other, then with none, and tells how many are left. -/
structure HandsOut (row zeros : Nat) : Prop where
  number : (references row).length = zeros + 1
  link : ∀ k ≤ zeros, (references row)[k]? = some (row - 2 ^ k) ∧ 2 ^ k ≤ row
  descending : (references row).Pairwise (· > ·)
  last : ∃ r, (references row).getLast? = some r ∧
    ∀ j, r.testBit j = (row.testBit j && j != zeros)
  asked : ∀ n, ∃ links left, (Checked.Links.start row).bind (Checked.Links.ask n) =
    some ((List.range n).map ((references row)[·]?), links) ∧
      left = ((references row).drop n).length ∧ links.sizeHint = some (left, some left)

theorem handsOut {row : Nat} (h : row < Word.count64) (hrow : row ≠ 0) :
    HandsOut row (level row) where
  number := by rw [length_references, referenceCount, if_neg hrow]
  link := fun k hk => ⟨getElem?_references hrow hk, two_pow_le hrow hk⟩
  descending := references_descending row
  last := by
    refine ⟨row - 2 ^ level row, ?_, testBit_sub_lowest hrow⟩
    rw [List.getLast?_eq_getElem?, length_references, referenceCount, if_neg hrow]
    exact getElem?_references hrow (Nat.le_refl _)
  asked := fun n => by
    refine ⟨.after row n, _, ?_, rfl, Checked.Links.sizeHint_after row n⟩
    rw [Checked.Links.start_eq h, Option.bind_some, Checked.Links.ask_after h, Nat.zero_add,
      List.range_eq_range']

/-- Every word but 0 hands out one link more than it has zeros at its end, and no two links cross:
one from a row that another passes over does not lead below that link's end. -/
theorem links_never_cross :
    (∀ row : UInt64, row ≠ 0 → HandsOut row.toNat row.toBitVec.ctz.toNat) ∧
    ∀ a b c d, b < a → c ∈ references a → d ∈ references b → ¬(c < b ∧ b < a ∧ d < c) := by
  constructor
  · intro row hrow
    have hnonzero : row.toNat ≠ 0 := fun hzero => hrow (UInt64.toNat_inj.1 hzero)
    rw [← level_eq_ctz hrow]
    exact handsOut (UInt64.toNat_lt row) hnonzero
  · rintro a b c d - hc hd ⟨hcb, hba, hdc⟩
    exact Nat.not_le.2 hdc (le_of_passed_over hc hd hcb hba)

theorem links_never_cross_highest :
    ((references (2 ^ 63)).length = 64 ∧ (references (2 ^ 63)).getLast? = some 0 ∧
      ∃ answers links, (Checked.Links.start (2 ^ 63)).bind (Checked.Links.ask 70) =
        some (answers, links) ∧ links.sizeHint = some (0, some 0)) ∧
    4 ∈ references 8 ∧ ∀ d ∈ references 6, 4 ≤ d := by
  have hrow : (0x8000000000000000 : UInt64).toNat = 2 ^ 63 := rfl
  have hzeros : (0x8000000000000000 : UInt64).toBitVec.ctz.toNat = 63 := by decide +kernel
  have handed := links_never_cross.1 0x8000000000000000 (by decide)
  rw [hrow, hzeros] at handed
  refine ⟨⟨handed.number, ?_, ?_⟩, by decide, ?_⟩
  · rw [List.getLast?_eq_getElem?, handed.number, Nat.add_sub_cancel,
      (handed.link 63 (Nat.le_refl _)).1, Nat.sub_self]
  · obtain ⟨links, left, hlinks, hleft, hhint⟩ := handed.asked 70
    rw [List.length_drop, handed.number] at hleft
    subst hleft
    exact ⟨_, links, hlinks, hhint⟩
  · intro d hd
    by_contra hlow
    exact links_never_cross.2 8 6 4 d (by decide) (by decide) hd
      ⟨by decide, by decide, Nat.not_le.1 hlow⟩

end Skip

end SkipChain
