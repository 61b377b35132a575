import Mathlib.Algebra.Group.Nat.Defs
import SkipChain.Bytes
import SkipChain.Hash.Crc32
/-!
What the cyclic redundancy check notices. Division by the generator is linear in exclusive or and
loses nothing, so a change within four bytes in a row always changes the checksum.
-/
namespace SkipChain.Crc32

variable {a b r r' : UInt32} {n : Nat} {bytes bytes' : Bytes}

def carry (r : UInt32) : UInt32 := if r.toNat % 2 = 0 then 0 else polynomial

theorem shift_eq (r : UInt32) : shift r = (r >>> 1) ^^^ carry r := by
  have hlow : r &&& 1 = 0 ↔ r.toNat % 2 = 0 := by
    rw [← UInt32.toNat_inj, UInt32.toNat_and]
    simp
  rw [shift, carry]
  by_cases h : r.toNat % 2 = 0
  · rw [if_pos (hlow.2 h), if_pos h, UInt32.xor_zero]
  · rw [if_neg (mt hlow.1 h), if_neg h]

theorem carry_xor (a b : UInt32) : carry (a ^^^ b) = carry a ^^^ carry b := by
  have hodd : (a ^^^ b).toNat % 2 = 1 ↔ ¬(a.toNat % 2 = 1 ↔ b.toNat % 2 = 1) := by
    rw [UInt32.toNat_xor, Nat.xor_mod_two_eq_one]
  have hlow : (a ^^^ b).toNat % 2 = (a.toNat % 2 + b.toNat % 2) % 2 := by omega
  rw [carry, carry, carry, hlow]
  rcases Nat.mod_two_eq_zero_or_one a.toNat with ha | ha <;>
    rcases Nat.mod_two_eq_zero_or_one b.toNat with hb | hb <;> simp [ha, hb]

theorem shift_xor (a b : UInt32) : shift (a ^^^ b) = shift a ^^^ shift b := by
  have hhalf : (a ^^^ b) >>> 1 = (a >>> 1) ^^^ (b >>> 1) := by
    rw [← UInt32.toBitVec_inj]
    simp [BitVec.ushiftRight_xor_distrib]
  rw [shift_eq, shift_eq, shift_eq, hhalf, carry_xor]
  ac_rfl

/-- A carry fills the highest bit, so without that bit nothing but zero has been shifted out. -/
theorem toNat_of_shift_lt (h : (shift r).toNat < 2 ^ 31) : r.toNat = 2 * (shift r).toNat := by
  have hhalf : (r >>> 1).toNat = r.toNat / 2 := by
    rw [UInt32.toNat_shiftRight]
    simp [Nat.shiftRight_eq_div_pow]
  rw [shift_eq, carry] at h ⊢
  split at h
  · next heven =>
    rw [if_pos heven, UInt32.xor_zero, hhalf]
    omega
  · next hodd =>
    -- the carry is the exclusive or of two numbers without the highest bit
    have hcarry : polynomial.toNat = ((r >>> 1) ^^^ polynomial).toNat ^^^ (r >>> 1).toNat := by
      rw [← UInt32.toNat_xor]
      congr 1
      rw [UInt32.xor_comm, ← UInt32.xor_assoc, UInt32.xor_self, UInt32.zero_xor]
    have hbound : polynomial.toNat < 2 ^ 31 := by
      rw [hcarry]
      apply Nat.xor_lt_two_pow h
      rw [hhalf]
      have := r.toNat_lt
      omega
    exact absurd hbound (by decide)

theorem shifts_xor (n : Nat) (a b : UInt32) : shifts n (a ^^^ b) = shifts n a ^^^ shifts n b := by
  induction n generalizing a b with
  | zero => rfl
  | succ n ih => rw [shifts, shifts, shifts, shift_xor, ih]

theorem toNat_of_shifts_lt (hn : n ≤ 31) (h : (shifts n r).toNat < 2 ^ (32 - n)) :
    r.toNat = 2 ^ n * (shifts n r).toNat := by
  induction n generalizing r with
  | zero => simp [shifts]
  | succ n ih =>
    rw [shifts] at h ⊢
    have hrest : (shift r).toNat = 2 ^ n * (shifts n (shift r)).toNat :=
      ih (by omega) (Nat.lt_of_lt_of_le h (Nat.pow_le_pow_right (by decide) (by omega)))
    have hbound : (shift r).toNat < 2 ^ 31 := by
      calc (shift r).toNat = 2 ^ n * (shifts n (shift r)).toNat := hrest
        _ < 2 ^ n * 2 ^ (32 - (n + 1)) := Nat.mul_lt_mul_of_pos_left h (Nat.two_pow_pos n)
        _ = 2 ^ 31 := by
          rw [← Nat.pow_add]
          congr 1
          omega
    rw [toNat_of_shift_lt hbound, hrest, Nat.pow_succ, Nat.mul_comm (2 ^ n) 2, Nat.mul_assoc]

theorem shifts_injective (hn : n ≤ 31) (h : shifts n a = shifts n b) : a = b := by
  have hzero : shifts n (a ^^^ b) = 0 := by rw [shifts_xor, h, UInt32.xor_self]
  have hnumber := toNat_of_shifts_lt hn (r := a ^^^ b) (by rw [hzero]; exact Nat.two_pow_pos _)
  rw [hzero] at hnumber
  exact UInt32.xor_eq_zero_iff.1 (UInt32.toNat_inj.1 hnumber)

/-! Bytes are taken up one after the other. -/

theorem foldl_step_injective (h : bytes.foldl step r = bytes.foldl step r') : r = r' := by
  induction bytes generalizing r r' with
  | nil => exact h
  | cons b bytes ih =>
    have hstep : shifts 8 (r ^^^ b.toUInt32) = shifts 8 (r' ^^^ b.toUInt32) := ih h
    exact (UInt32.xor_left_inj _).1 (shifts_injective (by decide) hstep)

theorem foldl_step_xor (hlength : bytes.length = bytes'.length) (r r' : UInt32) :
    (bytes.zipWith (· ^^^ ·) bytes').foldl step (r ^^^ r') =
      bytes.foldl step r ^^^ bytes'.foldl step r' := by
  induction bytes generalizing bytes' r r' with
  | nil =>
    cases bytes' with
    | nil => rfl
    | cons b' bytes' => simp at hlength
  | cons b bytes ih =>
    cases bytes' with
    | nil => simp at hlength
    | cons b' bytes' =>
      have hstep : step (r ^^^ r') (b ^^^ b') = step r b ^^^ step r' b' := by
        rw [step, step, step, ← shifts_xor, UInt8.toUInt32_xor]
        congr 1
        ac_rfl
      rw [List.zipWith_cons_cons, List.foldl_cons, List.foldl_cons, List.foldl_cons, hstep]
      exact ih (by simpa using hlength) _ _

/-- Where at most four bytes leave nothing, the remainder before them is the number that they spell,
lowest byte first; so it is zero only if they are. -/
theorem lt_of_foldl_step_eq_zero (hshort : bytes.length ≤ 4) (h : bytes.foldl step r = 0) :
    r.toNat < 2 ^ (8 * bytes.length) ∧ (r = 0 → ∀ b ∈ bytes, b = 0) := by
  induction bytes generalizing r with
  | nil =>
    obtain rfl : r = 0 := h
    simp
  | cons b bytes ih =>
    rw [List.length_cons] at hshort
    obtain ⟨hbound, hzero⟩ := ih (by omega) h
    have hback : (r ^^^ b.toUInt32).toNat = 2 ^ 8 * (step r b).toNat :=
      toNat_of_shifts_lt (by decide)
        (Nat.lt_of_lt_of_le hbound (Nat.pow_le_pow_right (by decide) (by omega)))
    have hbyte : b.toUInt32.toNat < 2 ^ 8 := by simpa using b.toNat_lt
    refine ⟨?_, ?_⟩
    · have hsum : (r ^^^ b.toUInt32).toNat < 2 ^ (8 * (bytes.length + 1)) := by
        rw [hback, Nat.mul_succ, Nat.add_comm, Nat.pow_add]
        exact Nat.mul_lt_mul_of_pos_left hbound (by decide)
      have hfirst : b.toUInt32.toNat < 2 ^ (8 * (bytes.length + 1)) :=
        Nat.lt_of_lt_of_le hbyte (Nat.pow_le_pow_right (by decide) (by omega))
      have hr : r = (r ^^^ b.toUInt32) ^^^ b.toUInt32 := by
        rw [UInt32.xor_assoc, UInt32.xor_self, UInt32.xor_zero]
      rw [hr, UInt32.toNat_xor, List.length_cons]
      exact Nat.xor_lt_two_pow hsum hfirst
    · rintro rfl
      rw [UInt32.zero_xor] at hback
      have hstep : step 0 b = 0 := UInt32.toNat_inj.1 (show (step 0 b).toNat = 0 by omega)
      have hb : b.toNat = 0 := by
        rw [← UInt8.toNat_toUInt32, hback, hstep]
        rfl
      exact List.forall_mem_cons.2 ⟨UInt8.toNat_inj.1 hb, hzero hstep⟩

theorem eq_of_zipWith_xor (hlength : bytes.length = bytes'.length)
    (h : ∀ b ∈ bytes.zipWith (· ^^^ ·) bytes', b = 0) : bytes = bytes' := by
  induction bytes generalizing bytes' with
  | nil => exact (List.eq_nil_of_length_eq_zero hlength.symm).symm
  | cons b bytes ih =>
    cases bytes' with
    | nil => simp at hlength
    | cons b' bytes' =>
      rw [List.zipWith_cons_cons, List.forall_mem_cons] at h
      rw [UInt8.xor_eq_zero_iff.1 h.1, ih (by simpa using hlength) h.2]

theorem checksum_ne_of_burst {before burst burst' after : Bytes}
    (hlength : burst.length = burst'.length) (hshort : burst.length ≤ 4) (hne : burst ≠ burst') :
    checksum (before ++ burst ++ after) ≠ checksum (before ++ burst' ++ after) := by
  intro h
  simp only [checksum, List.foldl_append, UInt32.xor_left_inj] at h
  have hburst := foldl_step_injective h
  have hnothing : (burst.zipWith (· ^^^ ·) burst').foldl step 0 = 0 := by
    rw [← UInt32.xor_self (a := before.foldl step 0xFFFFFFFF), foldl_step_xor hlength, hburst,
      UInt32.xor_self, UInt32.xor_self]
  have hlow : (burst.zipWith (· ^^^ ·) burst').length ≤ 4 := by
    rw [List.length_zipWith]
    omega
  exact hne (eq_of_zipWith_xor hlength ((lt_of_foldl_step_eq_zero hlow hnothing).2 rfl))

end SkipChain.Crc32
