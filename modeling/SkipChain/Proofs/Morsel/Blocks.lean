import Mathlib.Algebra.Group.Int.Defs
import Mathlib.Logic.Basic
import SkipChain.Morsel.Blocks
import SkipChain.Proofs.Morsel.Timechain
/-!
Blocks and their ranges fit together. A block that has a range is the block of just the instants in
it, ranges that follow one another leave no gap, and in finding either no word is left.
-/
namespace SkipChain.Timechain

variable {t : Timechain} {instant : Int64} {block : Nat} {start stop : Int}

theorem boundary_succ_sub (t : Timechain) (n : Nat) :
    t.boundary (n + 1) - t.boundary n = 2 ^ t.binExponent.toNat := by
  rw [boundary_succ, width_eq]
  push_cast
  omega

theorem range?_eq_some_iff :
    t.range? block = some (start, stop) ↔ ∃ n, block = n + 1 ∧
      Word.isInt64 (t.boundary n - t.inception.toInt) ∧ Word.isInt64 (t.boundary (n + 1)) ∧
      start = t.boundary n ∧ stop = t.boundary (n + 1) := by
  cases block with
  | zero =>
    constructor
    · nofun
    · rintro ⟨n, hn, -⟩
      omega
  | succ n =>
    rw [range?_succ]
    split
    case isTrue hwords =>
      constructor
      · intro h
        cases h
        exact ⟨n, rfl, hwords.1, hwords.2, rfl, rfl⟩
      · rintro ⟨m, hm, -, -, rfl, rfl⟩
        cases hm
        rfl
    case isFalse hwords =>
      constructor
      · nofun
      · rintro ⟨m, hm, hbegun, hended, -⟩
        cases hm
        exact absurd ⟨hbegun, hended⟩ hwords

/-- If the time up to a block is a word, so is the time up to each instant in it: the words end
where a block ends. -/
theorem isInt64_elapsed {n : Nat} (valid : t.isValid)
    (hbegun : Word.isInt64 (t.boundary n - t.inception.toInt))
    (hstart : t.boundary n ≤ instant.toInt) (hstop : instant.toInt < t.boundary (n + 1)) :
    Word.isInt64 (instant.toInt - t.inception.toInt) := by
  have hdvd : t.width ∣ 2 ^ 63 := by
    rw [width_eq]
    exact Nat.pow_dvd_pow 2 (Nat.le_succ_of_le (exponent_le valid))
  obtain ⟨blocks, hblocks⟩ := hdvd
  have hpos := t.width_pos
  have hcast : ((n * t.width : Nat) : Int) = n * t.width := Int.natCast_mul n t.width
  rw [Word.isInt64_iff] at hbegun ⊢
  rw [boundary_succ] at hstop
  unfold boundary at hbegun hstart hstop
  have hn : n < blocks := by
    have hlt : t.width * n < t.width * blocks := by
      rw [Nat.mul_comm t.width n]
      omega
    exact Nat.lt_of_mul_lt_mul_left hlt
  have hnext : (n + 1) * t.width ≤ 2 ^ 63 := by
    rw [hblocks, Nat.mul_comm t.width blocks]
    exact Nat.mul_le_mul_right t.width hn
  rw [Nat.add_mul, Nat.one_mul] at hnext
  omega

theorem blockAt?_eq_some_iff_of_range? (valid : t.isValid)
    (hrange : t.range? block = some (start, stop)) :
    t.blockAt? instant = some block ↔ start ≤ instant.toInt ∧ instant.toInt < stop := by
  obtain ⟨n, rfl, hbegun, -, rfl, rfl⟩ := range?_eq_some_iff.1 hrange
  rw [blockAt?_eq_some_iff]
  constructor
  · rintro ⟨m, hm, -, hbetween⟩
    cases hm
    exact hbetween
  · rintro ⟨hstart, hstop⟩
    exact ⟨n, rfl, isInt64_elapsed valid hbegun hstart hstop, hstart, hstop⟩

end SkipChain.Timechain

namespace SkipChain.Checked

variable {t : Timechain}

theorem blockAt_eq (valid : t.isValid) (instant : Int64) :
    blockAt t instant = some (t.blockAt? instant) := by
  have hexponent := Timechain.exponent_le valid
  unfold blockAt Timechain.blockAt? Word.int64?
  by_cases hword : Word.isInt64 (instant.toInt - t.inception.toInt)
  · simp only [hword, if_true, Bool.not_true, Bool.false_eq_true, or_false]
    split
    · rfl
    · next hfrom =>
      have hbound := (Word.isInt64_iff.1 hword).2
      have hindex := Nat.div_le_self (instant.toInt - t.inception.toInt).toNat t.width
      rw [Word.unsigned?, if_pos (by omega), Option.bind_eq_bind, Option.bind_some,
        Word.shiftRight?, if_pos (by omega), Nat.shiftRight_eq_div_pow, ← Timechain.width_eq, Option.bind_some,
        Word.add?, if_pos (by simp only [Word.count64]; omega)]
      rfl
  · simp [hword]

theorem blockRange_eq (valid : t.isValid) (block : Nat) :
    blockRange t block = some (t.range? block) := by
  have hexponent := Timechain.exponent_le valid
  have hbit : Word.bit? t.binExponent.toNat = some t.width := by
    rw [Word.bit?, if_pos (by omega), Timechain.width]
  have hwidth := Timechain.isInt64_width valid
  cases block with
  | zero => rfl
  | succ n =>
    have hsub : Word.sub? (n + 1) 1 = some n := by
      rw [Word.sub?, if_pos (Nat.le_add_left 1 n), Nat.add_sub_cancel]
    have hindex : ((n + 1 : Nat) : Int) - 1 = n := by omega
    rw [blockRange, hsub, Option.bind_some, Timechain.range?, hindex, Word.int64?]
    by_cases hn : Word.isInt64 n
    case neg => simp [hn]
    simp only [hn, if_true]
    rw [hbit, Option.bind_eq_bind, Option.bind_some, Option.bind_eq_bind, Word.int64?_bind,
      if_pos hwidth, if_neg (Nat.succ_ne_zero n)]
    simp only [Option.bind_eq_bind, Word.int64?_bind, List.all_cons, List.all_nil, hn,
      Bool.true_and, Bool.and_true, Bool.and_eq_true, ite_and]
    rfl

end SkipChain.Checked

namespace SkipChain.Timechain

/-- A block that has a range is as long as all others, and it is the block of just the instants in
the range. The ranges of two blocks in a row leave no gap between them. No word is left in finding
the block of an instant, or the range of a block. -/
theorem blocks_tile {t : Timechain} (valid : t.isValid) :
    (∀ block start stop, t.range? block = some (start, stop) →
      stop - start = 2 ^ t.binExponent.toNat ∧
        (∀ instant : Int64, t.blockAt? instant = some block ↔
          start ≤ instant.toInt ∧ instant.toInt < stop) ∧
        ∀ start' stop', t.range? (block + 1) = some (start', stop') → stop = start') ∧
      (∀ instant, Checked.blockAt t instant = some (t.blockAt? instant)) ∧
      ∀ block, Checked.blockRange t block = some (t.range? block) := by
  refine ⟨fun block start stop hrange => ⟨?_, fun instant => ?_, fun start' stop' hnext => ?_⟩,
    Checked.blockAt_eq valid, Checked.blockRange_eq valid⟩
  · obtain ⟨n, -, -, -, rfl, rfl⟩ := range?_eq_some_iff.1 hrange
    exact t.boundary_succ_sub n
  · exact blockAt?_eq_some_iff_of_range? valid hrange
  · obtain ⟨n, rfl, -, -, -, rfl⟩ := range?_eq_some_iff.1 hrange
    obtain ⟨m, hm, -, -, rfl, -⟩ := range?_eq_some_iff.1 hnext
    cases hm
    rfl

def earliest : Timechain := ⟨10, -0x8000000000000000⟩

theorem blocks_tile_earliest :
    earliest.isValid ∧
      (∃ stop start, earliest.range? 0x1FFFFFFFFFFFFF = some (-2048, stop) ∧
        earliest.range? 0x20000000000000 = some (start, 0) ∧ stop = start) ∧
      earliest.blockAt? (-1) = some 0x20000000000000 ∧
      Checked.blockRange earliest 0x20000000000001 = some none := by
  have valid : earliest.isValid := by decide
  have hbefore : earliest.range? 0x1FFFFFFFFFFFFF = some (-2048, -1024) := by decide +kernel
  have hlast : earliest.range? 0x20000000000000 = some (-1024, 0) := by decide +kernel
  obtain ⟨hranges, -, hchecked⟩ := blocks_tile valid
  obtain ⟨-, -, hadjoins⟩ := hranges _ _ _ hbefore
  obtain ⟨-, hinstants, -⟩ := hranges _ _ _ hlast
  have hinside : -1024 ≤ (-1 : Int64).toInt ∧ (-1 : Int64).toInt < 0 := by decide +kernel
  refine ⟨valid, ⟨_, _, hbefore, hlast, hadjoins _ _ hlast⟩, (hinstants (-1)).2 hinside, ?_⟩
  rw [hchecked]
  decide +kernel

end SkipChain.Timechain
