import Mathlib.Algebra.Group.Nat.Defs
import SkipChain.Morsel.Timechain
/-!
Which instants have a block, and which blocks have a range. Blocks lie side by side from the
inception on. An instant has one only while the time since the inception has 64 bits with a sign,
and a block of it has a range only if the end of the block is an instant too.
-/
namespace SkipChain.Timechain

variable {t : Timechain} {instant : Int64} {block : Nat} {start stop : Int}

def boundary (t : Timechain) (blocks : Nat) : Int := t.inception.toInt + blocks * t.width

theorem width_eq (t : Timechain) : t.width = 2 ^ t.binExponent.toNat := by
  rw [width, Nat.one_shiftLeft]

theorem width_pos (t : Timechain) : 0 < t.width := by
  rw [width_eq]
  exact Nat.two_pow_pos _

theorem exponent_le (valid : t.isValid) : t.binExponent.toNat ≤ 62 :=
  UInt8.le_iff_toNat_le.1 (of_decide_eq_true valid)

theorem isInt64_width (valid : t.isValid) : Word.isInt64 t.width := by
  have hwidth : t.width ≤ 2 ^ 62 := by
    rw [width_eq]
    exact Nat.pow_le_pow_right (by decide) (exponent_le valid)
  rw [Word.isInt64_iff]
  omega

theorem boundary_succ (t : Timechain) (n : Nat) : t.boundary (n + 1) = t.boundary n + t.width := by
  rw [boundary, boundary, Int.natCast_add, Int.natCast_one, Int.add_mul, Int.one_mul,
    Int.add_assoc]

theorem inception_le_boundary (t : Timechain) (n : Nat) : t.inception.toInt ≤ t.boundary n :=
  Int.le_add_of_nonneg_right (Int.mul_nonneg (Int.natCast_nonneg _) (Int.natCast_nonneg _))

theorem div_width_eq_iff {elapsed n : Nat} (h : instant.toInt - t.inception.toInt = elapsed) :
    elapsed / t.width = n ↔
      t.boundary n ≤ instant.toInt ∧ instant.toInt < t.boundary (n + 1) := by
  have hpos := t.width_pos
  rw [Nat.div_eq_iff hpos, boundary_succ, boundary]
  have hcast : ((n * t.width : Nat) : Int) = n * t.width := Int.natCast_mul n t.width
  omega

theorem blockAt?_eq (t : Timechain) (instant : Int64) :
    t.blockAt? instant =
      if instant < t.inception ∨ ¬Word.isInt64 (instant.toInt - t.inception.toInt) then none
      else some ((instant.toInt - t.inception.toInt).toNat / t.width + 1) := by
  have hbefore : instant.toInt - t.inception.toInt < 0 ↔ instant < t.inception := by
    rw [Int64.lt_iff_toInt_lt]
    omega
  simp only [blockAt?, hbefore, Bool.not_eq_true', Bool.not_eq_true]

theorem blockAt?_eq_none_iff :
    t.blockAt? instant = none ↔
      instant < t.inception ∨ ¬Word.isInt64 (instant.toInt - t.inception.toInt) := by
  rw [blockAt?_eq]
  split
  case isTrue hnone => exact iff_of_true rfl hnone
  case isFalse hsome => exact iff_of_false nofun hsome

theorem blockAt?_eq_some_iff :
    t.blockAt? instant = some block ↔ ∃ n, block = n + 1 ∧
      Word.isInt64 (instant.toInt - t.inception.toInt) ∧
      t.boundary n ≤ instant.toInt ∧ instant.toInt < t.boundary (n + 1) := by
  simp only [blockAt?_eq, Int64.lt_iff_toInt_lt]
  split
  case isTrue hnone =>
    refine ⟨nofun, fun ⟨n, _, htold, hn, _⟩ => absurd htold ?_⟩
    exact hnone.resolve_left (Int.not_lt.2 (Int.le_trans (t.inception_le_boundary n) hn))
  case isFalse hsome =>
    obtain ⟨hfrom, htold⟩ := not_or.1 hsome
    obtain ⟨elapsed, helapsed⟩ := Int.eq_ofNat_of_zero_le (a := instant.toInt - t.inception.toInt)
      (by omega)
    rw [helapsed, Int.toNat_natCast, Option.some_inj]
    constructor
    · rintro rfl
      exact ⟨_, rfl, helapsed ▸ Decidable.not_not.1 htold, (div_width_eq_iff helapsed).1 rfl⟩
    · rintro ⟨n, rfl, -, hbetween⟩
      rw [(div_width_eq_iff helapsed).2 hbetween]

theorem range?_succ (t : Timechain) (n : Nat) :
    t.range? (n + 1) =
      if Word.isInt64 (t.boundary n - t.inception.toInt) ∧ Word.isInt64 (t.boundary (n + 1)) then
        some (t.boundary n, t.boundary (n + 1))
      else none := by
  have hindex : ((n + 1 : Nat) : Int) - 1 = n := by omega
  have hstart : (n : Int) * t.width + t.inception.toInt = t.boundary n := Int.add_comm _ _
  have hwords : [(n : Int), n * t.width, t.boundary n, t.boundary n + t.width].all Word.isInt64 ↔
      Word.isInt64 (t.boundary n - t.inception.toInt) ∧ Word.isInt64 (t.boundary (n + 1)) := by
    have hpos := t.width_pos
    have hmin := t.inception.le_toInt
    have hindex : (n : Int) ≤ n * t.width := by
      exact_mod_cast Nat.le_mul_of_pos_right n hpos
    simp only [List.all_cons, List.all_nil, Bool.and_true, Bool.and_eq_true, Word.isInt64_iff,
      boundary_succ]
    unfold boundary
    omega
  simp only [range?, hindex, hstart, hwords, Nat.succ_ne_zero, if_false, boundary_succ]

/-- There is no block before the inception, and from then on one as long as the time since the
inception is a word. The block of an instant has a range if and only if its end is an instant too,
and then the range contains the instant. -/
theorem covered_within_words (valid : t.isValid) (instant : Int64) :
    Word.isInt64 t.width ∧
      (instant < t.inception → t.blockAt? instant = none) ∧
      (t.inception ≤ instant → Word.isInt64 (instant.toInt - t.inception.toInt) →
        (t.blockAt? instant).isSome) ∧
      ∀ block, t.blockAt? instant = some block →
        ((t.range? block).isSome ↔ Word.isInt64 (t.boundary block)) ∧
          ∀ start stop, t.range? block = some (start, stop) →
            start ≤ instant.toInt ∧ instant.toInt < stop := by
  refine ⟨isInt64_width valid, fun hbefore => blockAt?_eq_none_iff.2 (.inl hbefore),
    fun hfrom htold => ?_, fun block hblock => ?_⟩
  · rw [Option.isSome_iff_ne_none, Ne, blockAt?_eq_none_iff, not_or]
    exact ⟨Int64.not_lt.2 hfrom, not_not_intro htold⟩
  obtain ⟨n, rfl, htold, hstart, hstop⟩ := blockAt?_eq_some_iff.1 hblock
  have hbegun : Word.isInt64 (t.boundary n - t.inception.toInt) := by
    have hle := t.inception_le_boundary n
    rw [Word.isInt64_iff] at htold ⊢
    omega
  rw [range?_succ]
  by_cases hend : Word.isInt64 (t.boundary (n + 1))
  · rw [if_pos ⟨hbegun, hend⟩]
    refine ⟨iff_of_true rfl hend, fun start stop hrange => ?_⟩
    cases hrange
    exact ⟨hstart, hstop⟩
  · rw [if_neg fun h => hend h.2]
    exact ⟨iff_of_false nofun hend, nofun⟩

def longest : Timechain := ⟨62, -1⟩

theorem covered_within_words_longest :
    longest.isValid ∧ longest.inception ≤ 0x7FFFFFFFFFFFFFFE ∧
      (longest.blockAt? 0x7FFFFFFFFFFFFFFE).isSome ∧
      ∃ start stop, longest.range? 2 = some (start, stop) ∧
        start ≤ (0x7FFFFFFFFFFFFFFE : Int64).toInt ∧ (0x7FFFFFFFFFFFFFFE : Int64).toInt < stop := by
  have valid : longest.isValid := by decide
  have hfrom : longest.inception ≤ 0x7FFFFFFFFFFFFFFE := by decide
  have hblock : longest.blockAt? 0x7FFFFFFFFFFFFFFE = some 2 := by decide +kernel
  obtain ⟨-, -, hsome, hranges⟩ := covered_within_words valid 0x7FFFFFFFFFFFFFFE
  obtain ⟨hended, hcontains⟩ := hranges 2 hblock
  obtain ⟨⟨start, stop⟩, hrange⟩ := Option.isSome_iff_exists.1 (hended.2 (by decide +kernel))
  exact ⟨valid, hfrom, hsome hfrom (by decide +kernel), start, stop, hrange,
    hcontains start stop hrange⟩

def ancient : Timechain := ⟨10, -0x4000000000000000⟩

/-- Of blocks of the greatest length from 1970 on, the second has no range: it ends after the last
instant. At `2 ^ 62` milliseconds after 1970 the ancient blocks are told no more, though the number
and both ends of the block that starts then are words. -/
theorem instants_uncovered :
    ((⟨62, 0⟩ : Timechain).isValid ∧
      (⟨62, 0⟩ : Timechain).blockAt? 0x4000000000000000 = some 2 ∧
      (⟨62, 0⟩ : Timechain).range? 2 = none) ∧
    ancient.isValid ∧ ¬(0x4000000000000000 < ancient.inception) ∧
      ancient.blockAt? 0x4000000000000000 = none ∧
      ancient.boundary 0x20000000000000 = 0x4000000000000000 ∧
      ancient.boundary 0x20000000000001 = 0x4000000000000400 ∧
      ancient.range? 0x20000000000001 = none := by
  decide +kernel

end SkipChain.Timechain
