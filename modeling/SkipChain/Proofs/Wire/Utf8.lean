import SkipChain.Bytes.Utf8
/-!
Every text is read back from its bytes, and bytes read as a text are the bytes of that text.
-/
namespace SkipChain.Utf8

variable {n : Nat} {rest : Bytes}

theorem toNat_range (c : Char) :
    c.toNat < 0xD800 ∨ 0xDFFF < c.toNat ∧ c.toNat < 0x110000 := c.valid

theorem tails_cons {left low high code : Nat} (h : n < 256) (hlow : low ≤ n) (hhigh : n ≤ high) :
    tails (left + 1) low high code (UInt8.ofNat n :: rest)
      = tails left 0x80 0xBF (64 * code + (n - 0x80)) rest := by
  rw [tails, Bytes.toNat_byte h, if_pos ⟨hlow, hhigh⟩]

theorem tails_next {left code : Nat} (n : Nat) :
    tails (left + 1) 0x80 0xBF code (UInt8.ofNat (0x80 + n % 64) :: rest)
      = tails left 0x80 0xBF (64 * code + n % 64) rest := by
  rw [tails_cons (by omega) (by omega) (by omega), Nat.add_sub_cancel_left]

theorem step_ascii (h : n < 0x80) :
    step (UInt8.ofNat n) rest = .char (Char.ofNat n) rest := by
  rw [step, Lead.ofByte?, Bytes.toNat_byte (by omega), if_pos h]
  rfl

theorem ofByte?_two (hlow : 0x80 ≤ n) (hhigh : n < 0x800) :
    Lead.ofByte? (UInt8.ofNat (0xC0 + n / 64)) = some ⟨1, 0x80, 0xBF, n / 64⟩ := by
  rw [Lead.ofByte?, Bytes.toNat_byte (by omega), if_neg (by omega), if_neg (by omega),
    if_pos (by omega), Nat.add_sub_cancel_left]

theorem ofByte?_three (hlow : 0x800 ≤ n) (hhigh : n < 0x10000)
    (hvalid : n < 0xD800 ∨ 0xDFFF < n) :
    ∃ low high, Lead.ofByte? (UInt8.ofNat (0xE0 + n / 4096)) = some ⟨2, low, high, n / 4096⟩ ∧
      low ≤ 0x80 + n / 64 % 64 ∧ 0x80 + n / 64 % 64 ≤ high := by
  rw [Lead.ofByte?, Bytes.toNat_byte (by omega), if_neg (by omega), if_neg (by omega),
    if_neg (by omega)]
  split
  · next h => exact ⟨0xA0, 0xBF, by rw [show n / 4096 = 0 by omega], by omega, by omega⟩
  · split
    · next h => exact ⟨0x80, 0x9F, by rw [show n / 4096 = 13 by omega], by omega, by omega⟩
    · refine ⟨0x80, 0xBF, ?_, by omega, by omega⟩
      rw [if_pos (by omega), Nat.add_sub_cancel_left]

theorem ofByte?_four (hlow : 0x10000 ≤ n) (hhigh : n < 0x110000) :
    ∃ low high, Lead.ofByte? (UInt8.ofNat (0xF0 + n / 262144)) = some ⟨3, low, high, n / 262144⟩ ∧
      low ≤ 0x80 + n / 4096 % 64 ∧ 0x80 + n / 4096 % 64 ≤ high := by
  rw [Lead.ofByte?, Bytes.toNat_byte (by omega), if_neg (by omega), if_neg (by omega),
    if_neg (by omega), if_neg (by omega), if_neg (by omega), if_neg (by omega)]
  split
  · next h => exact ⟨0x90, 0xBF, by rw [show n / 262144 = 0 by omega], by omega, by omega⟩
  · split
    · exact ⟨0x80, 0xBF, by rw [Nat.add_sub_cancel_left], by omega, by omega⟩
    · rw [if_pos (by omega)]
      exact ⟨0x80, 0x8F, by rw [show n / 262144 = 4 by omega], by omega, by omega⟩

theorem step_encodeChar (c : Char) (rest : Bytes) :
    ∃ b bs, encodeChar c = b :: bs ∧ step b (bs ++ rest) = .char c rest := by
  have hvalid := toNat_range c
  have hchar : Char.ofNat c.toNat = c := Char.ofNat_toNat c
  unfold encodeChar
  generalize c.toNat = n at *
  dsimp only
  split
  · next h => exact ⟨_, _, rfl, by rw [List.nil_append, step_ascii h, hchar]⟩
  split
  · next h =>
    refine ⟨_, _, rfl, ?_⟩
    simp only [step, ofByte?_two (by omega) h, List.cons_append, List.nil_append, tails_next]
    rw [show 64 * (n / 64) + n % 64 = n by omega, tails, hchar]
  split
  · next h =>
    obtain ⟨low, high, hlead, hlow, hhigh⟩ := ofByte?_three (by omega) h (by omega)
    refine ⟨_, _, rfl, ?_⟩
    simp only [step, hlead, List.cons_append, List.nil_append]
    rw [tails_cons (by omega) hlow hhigh, tails_next, tails, Nat.add_sub_cancel_left,
      show 64 * (64 * (n / 4096) + n / 64 % 64) + n % 64 = n by omega, hchar]
  · next h =>
    obtain ⟨low, high, hlead, hlow, hhigh⟩ := ofByte?_four (by omega) (show n < 0x110000 by omega)
    refine ⟨_, _, rfl, ?_⟩
    simp only [step, hlead, List.cons_append, List.nil_append]
    rw [tails_cons (by omega) hlow hhigh, tails_next, tails_next, tails, Nat.add_sub_cancel_left,
      show 64 * (64 * (64 * (n / 262144) + n / 4096 % 64) + n / 64 % 64) + n % 64 = n by omega,
      hchar]

theorem splitValid_encode (cs : List Char) {fuel : Nat}
    (h : (cs.flatMap encodeChar).length ≤ fuel) :
    splitValid fuel (cs.flatMap encodeChar) = (cs, []) := by
  induction cs generalizing fuel with
  | nil => cases fuel <;> rfl
  | cons c cs ih =>
    obtain ⟨b, bs, hbytes, hstep⟩ := step_encodeChar c (cs.flatMap encodeChar)
    rw [List.flatMap_cons, hbytes, List.cons_append] at h ⊢
    cases fuel with
    | zero => simp at h
    | succ fuel =>
      have hfuel : (cs.flatMap encodeChar).length ≤ fuel := by
        simp only [List.length_cons, List.length_append] at h
        omega
      simp only [splitValid, hstep, ih hfuel]

@[simp] theorem decode_encode (s : String) : decode (encode s) = .ok s := by
  rw [decode, encode, splitValid_encode _ (Nat.le_refl _)]
  exact congrArg Except.ok String.ofList_toList

theorem ofNat_eq {b : UInt8} (h : n = b.toNat) : UInt8.ofNat n = b := by
  rw [h, UInt8.ofNat_toNat]

theorem toNat_ofNat (h : n < 0xD800 ∨ 0xDFFF < n ∧ n < 0x110000) : (Char.ofNat n).toNat = n := by
  rw [Char.ofNat, dif_pos (show n.isValidChar from h)]
  rfl

section Tails

variable {b : UInt8} {bytes : Bytes} {c : Char} {low high code x : Nat}

theorem tails_eq_char {left : Nat} (h : tails (left + 1) low high code bytes = .char c rest) :
    ∃ b bs, bytes = b :: bs ∧ low ≤ b.toNat ∧ b.toNat ≤ high ∧
      tails left 0x80 0xBF (64 * code + (b.toNat - 0x80)) bs = .char c rest := by
  cases bytes with
  | nil => cases h
  | cons b bs =>
    rw [tails] at h
    split at h
    · next hb => exact ⟨b, bs, rfl, hb.1, hb.2, h⟩
    · cases h

/-- One byte after `b` continues a character whose code point has the high bits `x`. The bounds see
to it that one byte fewer is not enough. -/
theorem encodeChar_tails_one (hlead : 0xC0 + x = b.toNat) (hlow : 2 ≤ x) (hhigh : x < 32)
    (h : tails 1 0x80 0xBF x bytes = .char c rest) : encodeChar c ++ rest = b :: bytes := by
  obtain ⟨b₁, bs, rfl, hb₁, hb₁', h⟩ := tails_eq_char h
  obtain ⟨rfl, rfl⟩ := Step.char.inj h
  rw [encodeChar, toNat_ofNat (by omega), if_neg (by omega), if_pos (by omega)]
  generalize hn : 64 * x + (b₁.toNat - 0x80) = n
  rw [show n / 64 = x by omega, ofNat_eq hlead, ofNat_eq (show 0x80 + n % 64 = b₁.toNat by omega)]
  rfl

/-- Here the bounds exclude surrogates too. -/
theorem encodeChar_tails_two (hlead : 0xE0 + x = b.toNat) (hx : x < 16) (hlow : 0x80 ≤ low)
    (hhigh : high ≤ 0xBF) (hshort : x = 0 → 0xA0 ≤ low) (hsurrogate : x = 13 → high ≤ 0x9F)
    (h : tails 2 low high x bytes = .char c rest) : encodeChar c ++ rest = b :: bytes := by
  obtain ⟨b₁, bs, rfl, hb₁, hb₁', h⟩ := tails_eq_char h
  obtain ⟨b₂, bs, rfl, hb₂, hb₂', h⟩ := tails_eq_char h
  obtain ⟨rfl, rfl⟩ := Step.char.inj h
  rw [encodeChar, toNat_ofNat (by omega), if_neg (by omega), if_neg (by omega), if_pos (by omega)]
  generalize hn : 64 * (64 * x + (b₁.toNat - 0x80)) + (b₂.toNat - 0x80) = n
  rw [show n / 4096 = x by omega, ofNat_eq hlead,
    ofNat_eq (show 0x80 + n / 64 % 64 = b₁.toNat by omega),
    ofNat_eq (show 0x80 + n % 64 = b₂.toNat by omega)]
  rfl

/-- Here the bounds exclude code points that are too large. -/
theorem encodeChar_tails_three (hlead : 0xF0 + x = b.toNat) (hx : x ≤ 4) (hlow : 0x80 ≤ low)
    (hhigh : high ≤ 0xBF) (hshort : x = 0 → 0x90 ≤ low) (hlarge : x = 4 → high ≤ 0x8F)
    (h : tails 3 low high x bytes = .char c rest) : encodeChar c ++ rest = b :: bytes := by
  obtain ⟨b₁, bs, rfl, hb₁, hb₁', h⟩ := tails_eq_char h
  obtain ⟨b₂, bs, rfl, hb₂, hb₂', h⟩ := tails_eq_char h
  obtain ⟨b₃, bs, rfl, hb₃, hb₃', h⟩ := tails_eq_char h
  obtain ⟨rfl, rfl⟩ := Step.char.inj h
  rw [encodeChar, toNat_ofNat (by omega), if_neg (by omega), if_neg (by omega), if_neg (by omega)]
  generalize hn :
    64 * (64 * (64 * x + (b₁.toNat - 0x80)) + (b₂.toNat - 0x80)) + (b₃.toNat - 0x80) = n
  rw [show n / 262144 = x by omega, ofNat_eq hlead,
    ofNat_eq (show 0x80 + n / 4096 % 64 = b₁.toNat by omega),
    ofNat_eq (show 0x80 + n / 64 % 64 = b₂.toNat by omega),
    ofNat_eq (show 0x80 + n % 64 = b₃.toNat by omega)]
  rfl

theorem encodeChar_of_step (h : step b bytes = .char c rest) :
    encodeChar c ++ rest = b :: bytes := by
  rw [step, Lead.ofByte?] at h
  split at h
  · cases h
  · next lead hlead =>
    obtain ⟨count, low, high, x⟩ := lead
    dsimp only at h
    split at hlead
    · next hb =>
      cases hlead
      obtain ⟨rfl, rfl⟩ := Step.char.inj h
      rw [encodeChar, toNat_ofNat (.inl (Nat.lt_trans hb (by decide))), if_pos hb,
        UInt8.ofNat_toNat]
      rfl
    split at hlead
    · cases hlead
    split at hlead
    · cases hlead
      exact encodeChar_tails_one (by omega) (by omega) (by omega) h
    split at hlead
    · cases hlead
      exact encodeChar_tails_two (by omega) (by decide) (by decide) (by decide) (by decide)
        (by decide) h
    split at hlead
    · cases hlead
      exact encodeChar_tails_two (by omega) (by decide) (by decide) (by decide) (by decide)
        (by decide) h
    split at hlead
    · cases hlead
      exact encodeChar_tails_two (by omega) (by omega) (by decide) (by decide) (by omega)
        (by omega) h
    split at hlead
    · cases hlead
      exact encodeChar_tails_three (by omega) (by decide) (by decide) (by decide) (by decide)
        (by decide) h
    split at hlead
    · cases hlead
      exact encodeChar_tails_three (by omega) (by omega) (by decide) (by decide) (by omega)
        (by omega) h
    split at hlead
    · cases hlead
      exact encodeChar_tails_three (by omega) (by decide) (by decide) (by decide) (by decide)
        (by decide) h
    · cases hlead

end Tails

theorem encode_of_splitValid {fuel : Nat} {bytes left : Bytes} {cs : List Char}
    (h : splitValid fuel bytes = (cs, left)) : cs.flatMap encodeChar ++ left = bytes := by
  induction fuel generalizing bytes cs left with
  | zero =>
    cases h
    rfl
  | succ fuel ih =>
    cases bytes with
    | nil =>
      cases h
      rfl
    | cons b bytes =>
      rw [splitValid] at h
      split at h
      · cases h
        rfl
      · next c rest hstep =>
        cases h
        rw [List.flatMap_cons, List.append_assoc, ih rfl, encodeChar_of_step hstep]

theorem encode_of_decode {bytes : Bytes} {s : String} (h : decode bytes = .ok s) :
    encode s = bytes := by
  unfold decode at h
  split at h
  · next cs hsplit =>
    cases h
    have := encode_of_splitValid hsplit
    rwa [List.append_nil, ← String.toList_ofList (l := cs)] at this
  · cases h

end SkipChain.Utf8
