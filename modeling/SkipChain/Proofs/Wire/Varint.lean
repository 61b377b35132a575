import Mathlib.Data.Nat.Bitwise
import Mathlib.Data.Nat.Digits.Lemmas
import SkipChain.Proofs.Wire.Yields
import SkipChain.Wire.Words
/-!
The bytes that are read as a variable-length number are the LEB128 strings of 64 bits, and every bit
of them is kept. All else fails, and the failure tells a number that is cut off from one that is too
large. Of the strings of a number the one that is written is the only one of its length, and no
other is as short.
-/
namespace SkipChain

namespace Wire

variable {left : Nat} {b : UInt8} {bytes : Bytes}

/-- The number that bytes spell with their low seven bits, those of the first byte lowest. -/
def spelled (bytes : Bytes) : Nat := (bytes.mapIdx fun i b => b.toNat % 128 * 128 ^ i).sum

theorem spelled_eq (bytes : Bytes) :
    spelled bytes = Nat.ofDigits 128 (bytes.map fun b => b.toNat % 128) := by
  rw [Nat.ofDigits_eq_sum_mapIdx, spelled]
  exact congrArg List.sum (List.ext_getElem (by simp) fun i _ _ => by simp)

theorem spelled_cons (b : UInt8) (bytes : Bytes) :
    spelled (b :: bytes) = b.toNat % 128 + 128 * spelled bytes := by
  rw [spelled_eq, spelled_eq, List.map_cons, Nat.ofDigits_cons]

/-- Bytes of which all but the last say that more follow, by their high bit. There are at most
`left` such bytes, and after that many the last byte has one bit. -/
def Leb128 (left : Nat) (bytes : Bytes) : Prop :=
  ∃ more last, bytes = more ++ [last] ∧ (∀ b ∈ more, 128 ≤ b.toNat) ∧ last.toNat < 128 ∧
    more.length ≤ left ∧ (more.length = left → last.toNat ≤ 1)

theorem Leb128.last (hsmall : b.toNat < 128) (hbit : left = 0 → b.toNat ≤ 1) : Leb128 left [b] :=
  ⟨[], b, rfl, nofun, hsmall, Nat.zero_le left, fun hleft => hbit hleft.symm⟩

theorem Leb128.more (hbig : 128 ≤ b.toNat) (h : Leb128 left bytes) :
    Leb128 (left + 1) (b :: bytes) := by
  obtain ⟨more, last, rfl, hmore, hlast, hlength, hbit⟩ := h
  refine ⟨b :: more, last, rfl, List.forall_mem_cons.2 ⟨hbig, hmore⟩, hlast, ?_, ?_⟩
  · exact Nat.succ_le_succ hlength
  · exact fun hleft => hbit (Nat.succ_inj.1 hleft)

theorem Leb128.eq_of_spelled {left' : Nat} {bytes' : Bytes} (h : Leb128 left bytes)
    (h' : Leb128 left' bytes') (hlength : bytes.length = bytes'.length)
    (hspelled : spelled bytes = spelled bytes') : bytes = bytes' := by
  obtain ⟨more, last, rfl, hmore, hlast, -⟩ := h
  obtain ⟨more', last', rfl, hmore', hlast', -⟩ := h'
  induction more generalizing more' with
  | nil =>
    obtain rfl : more' = [] := by simpa using hlength.symm
    rw [List.nil_append, spelled_cons, List.nil_append, spelled_cons] at hspelled
    rw [← UInt8.toNat_inj.1 (show last.toNat = last'.toNat by omega)]
  | cons b more ih =>
    cases more' with
    | nil => simp at hlength
    | cons b' more' =>
      obtain ⟨hb, hmore⟩ := List.forall_mem_cons.1 hmore
      obtain ⟨hb', hmore'⟩ := List.forall_mem_cons.1 hmore'
      rw [List.cons_append, List.cons_append, spelled_cons, spelled_cons] at hspelled
      have := b.toNat_lt
      have := b'.toNat_lt
      have hrest := ih hmore more' (by simpa using hlength) (by omega) hmore'
      rw [List.cons_append, List.cons_append, hrest,
        UInt8.toNat_inj.1 (show b.toNat = b'.toNat by omega)]

end Wire

open Wire (Leb128 spelled spelled_cons)

namespace Decoder

variable {start left place low value : Nat} {c c' : Cursor} {bytes rest : Bytes}

theorem reads_varintFrom_last {b : UInt8} (hsmall : b.toNat < 128) (hbit : left = 0 → b.toNat ≤ 1) :
    Reads (varintFrom start (left + 1) place low) [b] rest (low + b.toNat * place) := by
  intro offset
  have hlast : ¬(left = 0 ∧ 1 < b.toNat) := by omega
  rw [List.singleton_append, varintFrom_byte, if_neg hlast, if_pos hsmall,
    Nat.mod_eq_of_lt hsmall]
  rfl

theorem reads_leb128 (h : Leb128 left bytes) :
    Reads (varintFrom start (left + 1) place low) bytes rest (low + spelled bytes * place) := by
  obtain ⟨more, last, rfl, hmore, hlast, hlength, hbit⟩ := h
  induction more generalizing left place low with
  | nil =>
    rw [List.nil_append, spelled_cons, Nat.mod_eq_of_lt hlast]
    exact reads_varintFrom_last hlast fun hleft => hbit hleft.symm
  | cons b more ih =>
    obtain ⟨hbig, hmore⟩ := List.forall_mem_cons.1 hmore
    cases left with
    | zero => cases hlength
    | succ left =>
      intro offset
      have hrest : Reads (varintFrom start (left + 1) (128 * place) (low + b.toNat % 128 * place))
          (more ++ [last]) rest _ :=
        ih hmore (Nat.le_of_succ_le_succ hlength) fun hleft => hbit (congrArg Nat.succ hleft)
      have hvalue : low + b.toNat % 128 * place + spelled (more ++ [last]) * (128 * place) =
          low + spelled (b :: (more ++ [last])) * place := by
        rw [spelled_cons, Nat.add_mul, ← Nat.mul_assoc, Nat.mul_comm (spelled _), Nat.add_assoc]
      rw [List.cons_append, List.cons_append, varintFrom_byte, if_neg (by omega), if_neg (by omega),
        hrest, hvalue, List.length_cons, Nat.add_assoc, Nat.add_comm 1]

theorem leb128_of_varintFrom (h : varintFrom start (left + 1) place low c = .ok value c') :
    ∃ bytes, Leb128 left bytes ∧ c.rest = bytes ++ c'.rest ∧
      value = low + spelled bytes * place := by
  induction left generalizing place low c with
  | zero =>
    obtain ⟨b, rest, hrest, hlast, ⟨hsmall, hvalue, hstop⟩ | ⟨hbig, -⟩⟩ := varintFrom_eq_ok h
    · refine ⟨[b], .last hsmall hlast, by rw [hrest, hstop, List.singleton_append], ?_⟩
      rw [hvalue, spelled_cons, Nat.mod_eq_of_lt hsmall]
      rfl
    · have := hlast rfl
      omega
  | succ left ih =>
    obtain ⟨b, rest, hrest, hlast, ⟨hsmall, hvalue, hstop⟩ | ⟨hbig, hmore⟩⟩ := varintFrom_eq_ok h
    · refine ⟨[b], .last hsmall hlast, by rw [hrest, hstop, List.singleton_append], ?_⟩
      rw [hvalue, spelled_cons, Nat.mod_eq_of_lt hsmall]
      rfl
    · obtain ⟨bytes, hbytes, htaken, hvalue⟩ := ih hmore
      refine ⟨b :: bytes, .more hbig hbytes, by rw [hrest, List.cons_append, ← htaken], ?_⟩
      rw [hvalue, spelled_cons, Nat.add_mul, ← Nat.mul_assoc, Nat.mul_comm (spelled _),
        Nat.add_assoc]

theorem reads_varint_leb128 (h : Leb128 9 bytes) : Reads varint bytes rest (spelled bytes) := by
  intro offset
  have hread : Reads (varintFrom offset (9 + 1) 1 0) bytes rest (0 + spelled bytes * 1) :=
    reads_leb128 h
  rw [Nat.zero_add, Nat.mul_one] at hread
  exact hread offset

theorem varint_eq_ok_iff : varint c = .ok value c' ↔ ∃ bytes, Leb128 9 bytes ∧
    c.rest = bytes ++ c'.rest ∧ c'.offset = c.offset + bytes.length ∧ value = spelled bytes := by
  obtain ⟨offset, ahead⟩ := c
  obtain ⟨stop, rest⟩ := c'
  dsimp only
  constructor
  · intro h
    obtain ⟨bytes, hbytes, rfl, -⟩ := leb128_of_varintFrom h
    have hread : Reads varint bytes rest _ := reads_varint_leb128 hbytes
    cases h.symm.trans (hread offset)
    exact ⟨bytes, hbytes, rfl, rfl, rfl⟩
  · rintro ⟨bytes, hbytes, rfl, rfl, rfl⟩
    exact reads_varint_leb128 hbytes offset

theorem varintFrom_eq_error {e : ValueError} (h : varintFrom start left place low c = .error e c') :
    e = .varint start
      (if c.rest.length < left ∧ c.rest.all (128 ≤ ·.toNat) then .truncated else .overflow) := by
  induction left generalizing place low c with
  | zero =>
    cases h
    rw [if_neg fun hfew => Nat.not_lt_zero _ hfew.1]
  | succ left ih =>
    obtain ⟨offset, ahead⟩ := c
    cases ahead with
    | nil =>
      cases h
      rw [if_pos ⟨Nat.succ_pos left, rfl⟩]
    | cons b rest =>
      rw [varintFrom_byte] at h
      split at h
      · next hlast =>
        cases h
        rw [if_neg fun hfew => by simp [hlast.1] at hfew]
      · split at h
        · cases h
        · next hbig =>
          rw [ih h]
          simp [Nat.not_lt.1 hbig]

end Decoder

namespace Word

variable {n k low : Nat}

theorem shiftLeft?_eq (hk : k < 64) (h : n * 2 ^ k < count64) :
    shiftLeft? n k = some (n * 2 ^ k) := by
  rw [shiftLeft?, if_pos hk, Nat.shiftLeft_eq, Nat.mod_eq_of_lt h]

theorem lor_mul_two_pow (h : low < 2 ^ k) : low ||| n * 2 ^ k = low + n * 2 ^ k := by
  rw [Nat.or_comm, Nat.mul_comm, ← Nat.two_pow_add_eq_or_of_lt h, Nat.add_comm]

theorem toNat_and_low (b : UInt8) : (b &&& 0x7F).toNat = b.toNat % 128 := by
  rw [UInt8.toNat_and]
  exact Nat.and_two_pow_sub_one_eq_mod b.toNat 7

theorem and_high_eq_zero_iff (b : UInt8) : b &&& 0x80 = 0 ↔ b.toNat < 128 := by
  have hlt := b.toNat_lt
  have hbit : (b &&& 0x80).toNat = (b.toNat.testBit 7).toNat * 128 := by
    rw [UInt8.toNat_and]
    exact Nat.and_two_pow b.toNat 7
  rw [← UInt8.toNat_inj, hbit, Nat.testBit_eq_decide_div_mod_eq]
  by_cases h : b.toNat / 2 ^ 7 % 2 = 1
  · simp only [h, decide_true]
    change 128 = 0 ↔ _
    omega
  · simp only [h, decide_false]
    change 0 = 0 ↔ _
    omega

theorem toNat_or_high {b : UInt8} (h : b.toNat < 128) : (b ||| 0x80).toNat = b.toNat + 128 := by
  rw [UInt8.toNat_or]
  exact lor_mul_two_pow (k := 7) (n := 1) h

end Word

namespace Checked

open Decoder (Reads)

/-- With `left + 1` bytes to come the next one's bits belong at `63 - 7 * left`. None of them is
pushed out, and the check after the last byte is never reached. -/
theorem varintFrom_eq {start value shift left offset : Nat} {bytes : Bytes}
    (hshift : shift + 7 * left = 63) (hvalue : value < 2 ^ shift) :
    varintFrom start value shift offset bytes =
      some (Decoder.varintFrom start (left + 1) (2 ^ shift) value ⟨offset, bytes⟩) := by
  induction bytes generalizing value shift left offset with
  | nil => rfl
  | cons b rest ih =>
    have hb := b.toNat_lt
    have hlast : shift = 63 ∧ 1 < b ↔ left = 0 ∧ 1 < b.toNat := by
      rw [UInt8.lt_iff_toNat_lt]
      exact and_congr_left fun _ => by omega
    rw [varintFrom, Decoder.varintFrom_byte]
    by_cases hover : left = 0 ∧ 1 < b.toNat
    · rw [if_pos (hlast.2 hover), if_pos hover]
    · have hbits : b.toNat % 128 * 2 ^ shift < Word.count64 := by
        cases left with
        | zero =>
          obtain rfl : shift = 63 := hshift
          simp only [Word.count64]
          omega
        | succ left =>
          calc b.toNat % 128 * 2 ^ shift
            _ ≤ 127 * 2 ^ 56 :=
              Nat.mul_le_mul (by omega) (Nat.pow_le_pow_right (by decide) (by omega))
            _ < Word.count64 := by decide
      have hjoined : value + b.toNat % 128 * 2 ^ shift < 2 ^ (shift + 7) := by
        have : b.toNat % 128 * 2 ^ shift ≤ 127 * 2 ^ shift := Nat.mul_le_mul_right _ (by omega)
        rw [Nat.pow_add]
        omega
      rw [if_neg fun h => hover (hlast.1 h), if_neg hover, Word.toNat_and_low,
        Word.shiftLeft?_eq (by omega) hbits, Option.bind_eq_bind, Option.bind_some,
        Word.lor_mul_two_pow hvalue]
      by_cases hsmall : b.toNat < 128
      · rw [if_pos ((Word.and_high_eq_zero_iff b).2 hsmall), if_pos hsmall]
        rfl
      · rw [if_neg fun h => hsmall ((Word.and_high_eq_zero_iff b).1 h), if_neg hsmall,
          if_neg (by omega)]
        cases left with
        | zero => omega
        | succ left =>
          have hnext : shift + 7 + 7 * left = 63 := by omega
          rw [ih hnext hjoined, Nat.pow_add, Nat.mul_comm (2 ^ shift)]

theorem varint_eq (c : Cursor) : varint c = some (Decoder.varint c) :=
  varintFrom_eq (show 0 + 7 * 9 = 63 from rfl) (by decide)

theorem putVarint_eq_within {fuel n : Nat} (h : n ≤ fuel) :
    putVarint n = Wire.varintWithin fuel n := by
  induction fuel generalizing n with
  | zero =>
    obtain rfl := Nat.le_zero.1 h
    rw [putVarint]
    rfl
  | succ fuel ih =>
    have hlow : (UInt8.ofNat (n &&& 0x7F)).toNat = n % 128 := by
      rw [show n &&& 0x7F = n % 128 from Nat.and_two_pow_sub_one_eq_mod n 7]
      exact Bytes.toNat_byte (by omega)
    rw [putVarint, Wire.varintWithin, show n >>> 7 = n / 128 from Nat.shiftRight_eq_div_pow n 7]
    by_cases hsmall : n < 128
    · rw [if_pos (Nat.div_eq_of_lt hsmall), if_pos hsmall, List.singleton_inj,
        ← UInt8.toNat_inj, hlow, Bytes.toNat_byte (by omega), Nat.mod_eq_of_lt hsmall]
    · have hhigh : (UInt8.ofNat (n &&& 0x7F) ||| 0x80) = UInt8.ofNat (n % 128 + 128) := by
        rw [← UInt8.toNat_inj, Word.toNat_or_high (by omega), hlow, Bytes.toNat_byte (by omega)]
      rw [if_neg (by omega), if_neg hsmall, hhigh, ih (by omega)]

theorem putVarint_eq (n : Nat) : putVarint n = Wire.varint n := putVarint_eq_within (Nat.le_refl n)

end Checked

namespace Wire

variable {n m : Nat}

theorem spelled_bounds (h : Leb128 9 bytes) :
    spelled bytes < Word.count64 ∧ (varint (spelled bytes)).length ≤ bytes.length := by
  have hread : Decoder.Reads Decoder.varint bytes [] _ := Decoder.reads_varint_leb128 h
  exact Decoder.yields_varint.of_reads hread

theorem leb128_varint (h : n < Word.count64) : Leb128 9 (varint n) ∧ spelled (varint n) = n := by
  have hread : Decoder.Reads Decoder.varint (varint n) [] n := Decoder.reads_varint h
  obtain ⟨bytes, hbytes, htaken, -, hvalue⟩ := Decoder.varint_eq_ok_iff.1 (hread 0)
  rw [List.append_cancel_right htaken]
  exact ⟨hbytes, hvalue.symm⟩

theorem varint_shortest (h : Leb128 9 bytes) (hspelled : spelled bytes = n) :
    bytes = varint n ∨ (varint n).length < bytes.length := by
  obtain ⟨hlt, hle⟩ := spelled_bounds h
  rw [hspelled] at hlt hle
  obtain ⟨hwritten, hback⟩ := leb128_varint hlt
  rcases Nat.lt_or_eq_of_le hle with hlonger | hlength
  · exact .inr hlonger
  · exact .inl (h.eq_of_spelled hwritten hlength.symm (hspelled.trans hback.symm))

theorem varint_prefix (hn : n < Word.count64) (hm : m < Word.count64)
    (h : varint n <+: varint m) : n = m := by
  obtain ⟨rest, hrest⟩ := h
  have hread : Decoder.Reads Decoder.varint (varint n) rest n := Decoder.reads_varint hn
  have hread' : Decoder.Reads Decoder.varint (varint m) [] m := Decoder.reads_varint hm
  have hsame := hread 0
  rw [hrest, ← List.append_nil (varint m), hread' 0] at hsame
  cases hsame
  rfl

end Wire

namespace Decoder

/-- In words of 64 bits numbers are read and written without losing a bit. Wherever the cursor
stands, a number is read exactly if one of the strings of 64 bits lies ahead; this string is taken
and its number is the value. A failure names the place where the number starts, and says that the
data ends if it does so before the tenth byte and before a byte that ends the number. What is
written of a number is the shortest of its strings, and is no beginning of what is written of
another. -/
theorem varint_exact :
    (∀ c, Checked.varint c = some (varint c)) ∧
    (∀ c value c', varint c = .ok value c' ↔ ∃ bytes, Leb128 9 bytes ∧
      c.rest = bytes ++ c'.rest ∧ c'.offset = c.offset + bytes.length ∧ value = spelled bytes) ∧
    (∀ bytes, Leb128 9 bytes → spelled bytes < Word.count64) ∧
    (∀ c e c', varint c = .error e c' → e = .varint c.offset
      (if c.rest.length < 10 ∧ c.rest.all (128 ≤ ·.toNat) then .truncated else .overflow)) ∧
    (∀ n : UInt64, Checked.putVarint n.toNat = Wire.varint n.toNat ∧
      Leb128 9 (Wire.varint n.toNat) ∧ spelled (Wire.varint n.toNat) = n.toNat ∧
      ∀ bytes, Leb128 9 bytes → spelled bytes = n.toNat →
        bytes = Wire.varint n.toNat ∨ (Wire.varint n.toNat).length < bytes.length) ∧
    ∀ n m : UInt64, Wire.varint n.toNat <+: Wire.varint m.toNat → n = m := by
  refine ⟨Checked.varint_eq, fun c value c' => varint_eq_ok_iff,
    fun bytes h => (Wire.spelled_bounds h).1, fun c e c' => varintFrom_eq_error, fun n => ?_,
    fun n m h => ?_⟩
  · obtain ⟨hwritten, hback⟩ := Wire.leb128_varint n.toNat_lt
    exact ⟨Checked.putVarint_eq n.toNat, hwritten, hback, fun bytes => Wire.varint_shortest⟩
  · exact UInt64.toNat_inj.1 (Wire.varint_prefix n.toNat_lt m.toNat_lt h)

theorem varint_exact_tenth :
    varint ⟨3, List.replicate 9 0xFF ++ [1, 7]⟩ = .ok (2 ^ 64 - 1) ⟨13, [7]⟩ ∧
    (∃ c, varint ⟨3, List.replicate 9 0xFF ++ [2, 7]⟩ = .error (.varint 3 .overflow) c) ∧
    (∃ c, varint ⟨3, List.replicate 9 0xFF⟩ = .error (.varint 3 .truncated) c) ∧
    Leb128 9 [0x80, 0x00] ∧ (Wire.varint 0).length < 2 := by
  obtain ⟨-, hread, -, hfail, hwrite, -⟩ := varint_exact
  have hfull : Leb128 9 (List.replicate 9 0xFF ++ [1]) :=
    ⟨List.replicate 9 0xFF, 1, rfl, by simp, by decide, by decide, by decide⟩
  have hlong : Leb128 9 [0x80, 0x00] := .more (by decide) (.last (by decide) (by decide))
  refine ⟨(hread _ _ _).2 ⟨_, hfull, rfl, rfl, rfl⟩, ?_, ?_, hlong, ?_⟩
  · obtain ⟨e, c, hrun⟩ : ∃ e c, varint ⟨3, List.replicate 9 0xFF ++ [2, 7]⟩ = .error e c :=
      ⟨_, _, rfl⟩
    exact ⟨c, hrun.trans (congrArg (EStateM.Result.error · c) (hfail _ _ _ hrun))⟩
  · obtain ⟨e, c, hrun⟩ : ∃ e c, varint ⟨3, List.replicate 9 0xFF⟩ = .error e c := ⟨_, _, rfl⟩
    exact ⟨c, hrun.trans (congrArg (EStateM.Result.error · c) (hfail _ _ _ hrun))⟩
  · rcases (hwrite 0).2.2.2 _ hlong rfl with hsame | hlonger
    · cases hsame
    · exact hlonger

end Decoder

end SkipChain
