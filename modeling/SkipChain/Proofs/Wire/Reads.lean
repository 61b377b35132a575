import Mathlib.Algebra.Group.Nat.Defs
import Mathlib.Data.List.Induction
import SkipChain.Proofs.Wire.Utf8
import SkipChain.Wire.Decoder
import SkipChain.Wire.Encode
import SkipChain.Word
/-!
When a read takes exactly some bytes off the front of the data and yields a given value, and when it
fails. Reads compose as the encodings they take are laid one after the other.
-/
namespace SkipChain

namespace Bytes

theorem toNat_bigEndian {width n : Nat} (h : n < 256 ^ width) :
    toNat (bigEndian width n) = n := by
  induction width generalizing n with
  | zero =>
    rw [Nat.pow_zero, Nat.lt_one_iff] at h
    rw [h]
    rfl
  | succ width ih =>
    have hhigh : n / 256 < 256 ^ width := Nat.div_lt_of_lt_mul (Nat.pow_succ' ▸ h)
    rw [bigEndian, toNat_concat, ih hhigh, UInt8.toNat_ofNat']
    exact Nat.div_add_mod n 256

theorem bigEndian_injective {width n m : Nat} (hn : n < 256 ^ width) (hm : m < 256 ^ width)
    (h : bigEndian width n = bigEndian width m) : n = m := by
  rw [← toNat_bigEndian hn, h, toNat_bigEndian hm]

theorem bigEndian_toNat (bytes : Bytes) : bigEndian bytes.length (toNat bytes) = bytes := by
  induction bytes using List.reverseRecOn with
  | nil => rfl
  | append_singleton bytes b ih =>
    have hlast := b.toNat_lt
    rw [toNat_concat, List.length_append, List.length_singleton, bigEndian,
      show (256 * toNat bytes + b.toNat) / 256 = toNat bytes by omega, ih,
      ← UInt8.ofNat_mod_size, show (256 * toNat bytes + b.toNat) % 2 ^ 8 = b.toNat by omega,
      UInt8.ofNat_toNat]

theorem toNat_lt (bytes : Bytes) : toNat bytes < 256 ^ bytes.length := by
  induction bytes using List.reverseRecOn with
  | nil => decide
  | append_singleton bytes b ih =>
    have hlast := b.toNat_lt
    rw [toNat_concat, List.length_append, List.length_singleton, Nat.pow_succ]
    omega

theorem toNat_injective {bytes bytes' : Bytes} (hlength : bytes.length = bytes'.length)
    (h : toNat bytes = toNat bytes') : bytes = bytes' := by
  rw [← bigEndian_toNat bytes, ← bigEndian_toNat bytes', hlength, h]

end Bytes

theorem Wire.varint_ne_nil (n : Nat) : varint n ≠ [] := by
  cases n with
  | zero => simp [varint, varintWithin]
  | succ n =>
    rw [varint, varintWithin]
    split <;> simp

namespace Decoder

variable {ε δ α β : Type} {read : Decoder ε α} {next : α → Decoder ε β} {bytes more rest : Bytes}
  {a : α} {b : β} {limit n : Nat}

/-- Wherever `bytes` lie ahead with `rest` after them, `read` yields `a` and stops at `rest`. -/
def Reads (read : Decoder ε α) (bytes rest : Bytes) (a : α) : Prop :=
  ∀ offset, read ⟨offset, bytes ++ rest⟩ = .ok a ⟨offset + bytes.length, rest⟩

def Refuses (read : Decoder ε α) (bytes : Bytes) : Prop :=
  ∀ offset, ∃ e c, read ⟨offset, bytes⟩ = .error e c

theorem Reads.pure (a : α) : Reads (pure a : Decoder ε α) [] rest a := fun _ => rfl

theorem Reads.run_bind (h : Reads read bytes rest a) (offset : Nat) :
    (read >>= next) ⟨offset, bytes ++ rest⟩ = next a ⟨offset + bytes.length, rest⟩ := by
  simp only [Bind.bind, EStateM.bind, h offset]

theorem Reads.bind (h : Reads read bytes (more ++ rest) a) (hnext : Reads (next a) more rest b) :
    Reads (read >>= next) (bytes ++ more) rest b := by
  intro offset
  have hread := h offset
  have hmore := hnext (offset + bytes.length)
  rw [List.append_assoc, List.length_append, ← Nat.add_assoc]
  simp only [Bind.bind, EStateM.bind, hread, hmore]

theorem Reads.bind_last (h : Reads read bytes rest a) (hnext : Reads (next a) [] rest b) :
    Reads (read >>= next) bytes rest b := by
  rw [← List.append_nil bytes]
  exact Reads.bind h hnext

theorem Reads.bind_pure {f : α → β} (h : Reads read bytes rest a) :
    Reads (read >>= fun a => Pure.pure (f a)) bytes rest (f a) :=
  h.bind_last (.pure (f a))

theorem Reads.map {f : α → β} (h : Reads read bytes rest a) :
    Reads (f <$> read) bytes rest (f a) := by
  intro offset
  simp only [Functor.map, EStateM.map, h offset]

theorem Reads.mapError {f : ε → δ} (h : Reads read bytes rest a) :
    Reads (mapError f read) bytes rest a := by
  intro offset
  simp only [Decoder.mapError, h offset]

theorem Reads.offset_bind {next : Nat → Decoder ε β} (h : ∀ n, Reads (next n) bytes rest b) :
    Reads (Decoder.offset >>= next) bytes rest b :=
  fun offset => h offset offset

theorem Reads.remaining_bind {next : Nat → Decoder ε β}
    (h : Reads (next (bytes.length + rest.length)) bytes rest b) :
    Reads (remaining >>= next) bytes rest b := by
  intro offset
  simp only [Bind.bind, EStateM.bind, remaining, List.length_append, h offset]

theorem Refuses.bind (h : Refuses read bytes) : Refuses (read >>= next) bytes := by
  intro offset
  obtain ⟨e, c, hread⟩ := h offset
  exact ⟨e, c, by simp only [Bind.bind, EStateM.bind, hread]⟩

theorem Reads.bind_refuses (h : Reads read bytes rest a) (hnext : Refuses (next a) rest) :
    Refuses (read >>= next) (bytes ++ rest) := by
  intro offset
  obtain ⟨e, c, hrest⟩ := hnext (offset + bytes.length)
  exact ⟨e, c, by simp only [Bind.bind, EStateM.bind, h offset, hrest]⟩

theorem Refuses.mapError {f : ε → δ} (h : Refuses read bytes) :
    Refuses (mapError f read) bytes := by
  intro offset
  obtain ⟨e, c, hread⟩ := h offset
  exact ⟨f e, c, by simp only [Decoder.mapError, hread]⟩

theorem Refuses.throw (e : ε) : Refuses (throw e : Decoder ε α) bytes :=
  fun _ => ⟨e, _, rfl⟩

theorem Refuses.offset_bind {next : Nat → Decoder ε β} (h : ∀ n, Refuses (next n) bytes) :
    Refuses (Decoder.offset >>= next) bytes :=
  fun offset => h offset offset

theorem eval_of_reads (h : Reads read bytes [] a) : read.eval bytes = .ok a := by
  have := h 0
  rw [List.append_nil] at this
  simp only [eval, EStateM.run, Cursor.start, this]

theorem eval_of_refuses (h : Refuses read bytes) : ∃ e, read.eval bytes = .error e := by
  obtain ⟨e, c, hread⟩ := h 0
  exact ⟨e, by simp only [eval, EStateM.run, Cursor.start, hread]⟩

theorem reads_byte (b : UInt8) : Reads byte [b] rest b := fun _ => rfl

theorem reads_take (bytes : Bytes) : Reads (take bytes.length) bytes rest bytes := by
  intro offset
  simp [take]

theorem reads_takeRest : Reads (takeRest : Decoder ε Bytes) bytes [] bytes := by
  intro offset
  simp [takeRest]

theorem reads_digest (d : Digest) : Reads digest d.bytes rest d := by
  intro offset
  have htake : (d.bytes ++ rest).take 32 = d.bytes := by
    rw [← d.length_bytes, List.take_left]
  have hdrop : (d.bytes ++ rest).drop 32 = rest := by
    rw [← d.length_bytes, List.drop_left]
  simp only [digest, htake, hdrop, d.length_bytes, dite_true]

theorem reads_bigEndian {width : Nat} (h : n < 256 ^ width) :
    Reads (bigEndian width) (Bytes.bigEndian width n) rest n := by
  have htake : Reads (take _) _ rest _ := reads_take (Bytes.bigEndian width n)
  rw [Bytes.length_bigEndian] at htake
  have := htake.bind_pure (f := Bytes.toNat)
  rwa [Bytes.toNat_bigEndian h] at this

theorem reads_word64 (w : UInt64) : Reads word64 (Bytes.bigEndian 8 w.toNat) rest w := by
  have hnumber : Reads (bigEndian 8) (Bytes.bigEndian 8 w.toNat) rest w.toNat :=
    reads_bigEndian w.toNat_lt
  have := hnumber.bind_pure (f := UInt64.ofNat)
  rwa [UInt64.ofNat_toNat] at this

theorem reads_int64 (n : Int64) : Reads int64 (Bytes.bigEndian 8 n.toUInt64.toNat) rest n := by
  have hword : Reads word64 _ rest _ := reads_word64 n.toUInt64
  have := hword.bind_pure (f := UInt64.toInt64)
  rwa [Int64.toInt64_toUInt64] at this

theorem varintFrom_byte {start left place low offset : Nat} {b : UInt8} :
    varintFrom start (left + 1) place low ⟨offset, b :: rest⟩ =
      if left = 0 ∧ 1 < b.toNat then .error (.varint start .overflow) ⟨offset + 1, rest⟩
      else if b.toNat < 128 then .ok (low + b.toNat % 128 * place) ⟨offset + 1, rest⟩
      else varintFrom start left (128 * place) (low + b.toNat % 128 * place) ⟨offset + 1, rest⟩ :=
  rfl

theorem varintFrom_cons {start left place low offset : Nat} (h : n < 256) :
    varintFrom start (left + 1) place low ⟨offset, UInt8.ofNat n :: rest⟩ =
      if left = 0 ∧ 1 < n then .error (.varint start .overflow) ⟨offset + 1, rest⟩
      else if n < 128 then .ok (low + n % 128 * place) ⟨offset + 1, rest⟩
      else varintFrom start left (128 * place) (low + n % 128 * place) ⟨offset + 1, rest⟩ := by
  rw [varintFrom_byte, Bytes.toNat_byte h]

/-- With `left + 1` bytes to come a number below `2 * 128 ^ left` is read, the last byte being held
to one bit. -/
theorem reads_varintFrom {start left place low fuel : Nat} (hfuel : n ≤ fuel)
    (h : n < 2 * 128 ^ left) :
    Reads (varintFrom start (left + 1) place low) (Wire.varintWithin fuel n) rest
      (low + n * place) := by
  intro offset
  induction fuel generalizing n left place low offset with
  | zero =>
    obtain rfl : n = 0 := by omega
    simp [Wire.varintWithin, varintFrom]
  | succ fuel ih =>
    rw [Wire.varintWithin]
    split
    · next hsmall =>
      have hlast : ¬(left = 0 ∧ 1 < n) := by
        rintro ⟨rfl, hn⟩
        omega
      rw [List.singleton_append, varintFrom_cons (by omega), if_neg hlast, if_pos hsmall,
        Nat.mod_eq_of_lt hsmall, List.length_singleton]
    · next hbig =>
      cases left with
      | zero => omega
      | succ left =>
        have hrest : n / 128 < 2 * 128 ^ left := by
          rw [Nat.pow_succ] at h
          omega
        have hsum : low + n % 128 * place + n / 128 * (128 * place) = low + n * place := by
          rw [← Nat.mul_assoc, Nat.add_assoc, ← Nat.add_mul, Nat.mod_add_div']
        rw [List.cons_append, varintFrom_cons (by omega), if_neg (by omega), if_neg (by omega),
          Nat.add_mod_right, Nat.mod_mod, ih (by omega) hrest, hsum, List.length_cons, Nat.add_assoc,
          Nat.add_comm 1]

theorem refuses_varintFrom {start left place low fuel : Nat} (hfuel : n ≤ fuel)
    (h : 2 * 128 ^ left ≤ n) :
    Refuses (varintFrom start (left + 1) place low) (Wire.varintWithin fuel n ++ rest) := by
  intro offset
  induction fuel generalizing n left place low offset with
  | zero =>
    have : 0 < 128 ^ left := Nat.pow_pos (by decide)
    omega
  | succ fuel ih =>
    rw [Wire.varintWithin]
    cases left with
    | zero =>
      split
      · rw [List.singleton_append, varintFrom_cons (by omega), if_pos ⟨rfl, by omega⟩]
        exact ⟨_, _, rfl⟩
      · rw [List.cons_append, varintFrom_cons (by omega), if_pos ⟨rfl, by omega⟩]
        exact ⟨_, _, rfl⟩
    | succ left =>
      have hpos : 0 < 128 ^ left := Nat.pow_pos (by decide)
      rw [Nat.pow_succ] at h
      rw [if_neg (by omega), List.cons_append, varintFrom_cons (by omega), if_neg (by omega),
        if_neg (by omega)]
      exact ih (by omega) (by omega) _

theorem reads_varint (h : n < Word.count64) : Reads varint (Wire.varint n) rest n := by
  intro offset
  have hread : Reads (varintFrom offset (9 + 1) 1 0) (Wire.varint n) rest (0 + n * 1) :=
    reads_varintFrom (Nat.le_refl n) h
  rw [Nat.zero_add, Nat.mul_one] at hread
  exact hread offset

theorem refuses_varint (h : Word.count64 ≤ n) : Refuses varint (Wire.varint n ++ rest) := by
  intro offset
  have hrefused : Refuses (varintFrom offset (9 + 1) 1 0) (Wire.varint n ++ rest) :=
    refuses_varintFrom (Nat.le_refl n) h
  exact hrefused offset

theorem reads_count (h : n ≤ limit) (hn : n < Word.count64) :
    Reads (count limit) (Wire.varint n) rest n := by
  apply Reads.offset_bind
  intro start
  rw [← List.append_nil (Wire.varint n)]
  apply (reads_varint hn).bind
  rw [if_neg (Nat.not_lt.2 h)]
  exact .pure n

theorem refuses_count (h : limit < n) : Refuses (count limit) (Wire.varint n ++ rest) := by
  apply Refuses.offset_bind
  intro start
  by_cases hn : n < Word.count64
  · apply (reads_varint hn).bind_refuses
    rw [if_pos h]
    exact Refuses.bind (.throw _)
  · exact (refuses_varint (Nat.not_lt.1 hn)).bind

theorem reads_block (h : bytes.length < Word.count64) :
    Reads block (Wire.block bytes) rest bytes := by
  apply Reads.remaining_bind
  apply (reads_count _ h).bind (reads_take bytes)
  rw [Wire.block, List.length_append]
  omega

theorem reads_text {s : String} (h : (Utf8.encode s).length < Word.count64) :
    Reads text (Wire.text s) rest s := by
  apply Reads.offset_bind
  intro start
  rw [Wire.text, ← List.append_nil (Wire.block _)]
  apply (reads_block h).bind
  simp only [Utf8.decode_encode]
  exact .pure s

theorem reads_replicate {encode : α → Bytes} {as : List α}
    (h : ∀ a ∈ as, ∀ rest, Reads read (encode a) rest a) :
    Reads (replicate read as.length) (as.flatMap encode) rest as := by
  induction as with
  | nil => exact .pure []
  | cons a as ih =>
    rw [List.flatMap_cons]
    apply (h a List.mem_cons_self _).bind
    exact (ih fun a ha => h a (List.mem_cons_of_mem _ ha)).bind_pure

end Decoder

end SkipChain
