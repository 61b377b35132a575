import SkipChain.Proofs.Ascending
import SkipChain.Proofs.Wire.Reads
import SkipChain.Table.Row
import SkipChain.Table.SaltScheme
/-!
Cells, rows and salt schemes are read back from their encodings. A row with too many cells is not,
nor is a cell that may not be.
-/
namespace SkipChain

open Decoder (Reads Refuses)

variable {rest : Bytes} {limit : Nat}

theorem Wire.length_le_block (bytes : Bytes) : bytes.length ≤ (block bytes).length := by
  simp [block]

theorem length_le_flatMap {α : Type} {encode : α → Bytes} {as : List α} {a : α} (h : a ∈ as) :
    (encode a).length ≤ (as.flatMap encode).length := by
  rw [List.flatMap_def]
  exact (List.sublist_flatten_of_mem (List.mem_map_of_mem h)).length_le

theorem length_le_length_flatMap {α : Type} {encode : α → Bytes} (h : ∀ a, encode a ≠ [])
    (as : List α) : as.length ≤ (as.flatMap encode).length := by
  induction as with
  | nil => simp
  | cons a as ih =>
    have := List.length_pos_of_ne_nil (h a)
    simp only [List.flatMap_cons, List.length_append, List.length_cons]
    omega

@[simp] theorem ColumnType.ofCode_code (t : ColumnType) : ofCode t.code = .ok t := by
  cases t <;> rfl

namespace Value

def Sized : Value → Prop
  | bytes b => b.length < Word.count64
  | string s => (Utf8.encode s).length < Word.count64
  | _ => True

theorem sized_of_length {v : Value} (h : v.encode.length < Word.count64) : v.Sized := by
  cases v with
  | bytes b => exact Nat.lt_of_le_of_lt (Wire.length_le_block b) h
  | string s => exact Nat.lt_of_le_of_lt (Wire.length_le_block (Utf8.encode s)) h
  | _ => trivial

theorem reads_decode (v : Value) (h : v.Sized) :
    Reads (decode v.columnType) v.encode rest v := by
  cases v with
  | null => exact .pure null
  | hash d => exact (Decoder.reads_digest d).bind_pure
  | bytes b => exact (Decoder.reads_block h).bind_pure
  | string s => exact (Decoder.reads_text h).bind_pure
  | long n => exact (Decoder.reads_int64 n).bind_pure
  | double bits => exact (Decoder.reads_word64 bits).bind_pure
  | date n => exact (Decoder.reads_int64 n).bind_pure

end Value

namespace Cell

theorem make_self (c : Cell) : make c.value c.salt = .ok c := by
  have h := c.admitted
  unfold make
  split
  · next e he =>
    rw [h] at he
    cases he
  · rfl

theorem reads_salt (s : Salt) : Reads decodeSalt s.bytes rest s :=
  (Decoder.reads_digest ⟨s.bytes, s.length_bytes⟩).bind_pure

def spell (value : Value) (salt : Option Salt) : Bytes :=
  [value.columnType.code] ++ ([if salt.isSome then 1 else 0] ++
    (value.encode ++ salt.elim [] Salt.bytes))

theorem encode_eq_spell (c : Cell) : c.encode = spell c.value c.salt := rfl

/-- A cell is read in full before it is seen whether it may be. -/
theorem decode_spell {value : Value} (h : value.Sized) (salt : Option Salt) (offset : Nat) :
    decode ⟨offset, spell value salt ++ rest⟩ =
      (match make value salt with
        | .error e => throw e
        | .ok cell => pure cell : Decoder ValueError Cell)
        ⟨offset + (spell value salt).length, rest⟩ := by
  have hflags : ¬1 < (if salt.isSome then 1 else 0 : UInt8) := by
    cases salt.isSome <;> decide
  simp only [decode, spell, List.append_assoc, List.length_append, ← Nat.add_assoc]
  rw [(Decoder.reads_byte _).run_bind, ColumnType.ofCode_code]
  dsimp only
  rw [(Decoder.reads_byte _).run_bind, if_neg hflags, (Value.reads_decode value h).run_bind]
  cases salt with
  | none => rfl
  | some salt =>
    rw [Option.isSome_some, if_pos rfl, if_pos rfl, Option.elim_some]
    exact (reads_salt salt).map.run_bind _

theorem reads_decode (c : Cell) (h : c.value.Sized) : Reads decode c.encode rest c := by
  intro offset
  rw [encode_eq_spell, decode_spell h, make_self]
  rfl

theorem refuses_decode {value : Value} {salt : Option Salt} {e : ValueError} (h : value.Sized)
    (hmake : make value salt = .error e) : Refuses decode (spell value salt ++ rest) := by
  intro offset
  exact ⟨e, _, by rw [decode_spell h, hmake]; rfl⟩

end Cell

namespace Row

structure Sized (r : Row) : Prop where
  size : r.size < Word.count64
  values : ∀ c ∈ r.cells, c.value.Sized

theorem sized_of_length {r : Row} (h : r.encode.length < Word.count64) : r.Sized := by
  rw [encode, List.length_append] at h
  refine ⟨?_, fun c hc => Value.sized_of_length ?_⟩
  · have : r.cells.length ≤ (r.cells.flatMap Cell.encode).length :=
      length_le_length_flatMap (fun _ => List.cons_ne_nil _ _) r.cells
    rw [size]
    omega
  · have : c.encode.length ≤ (r.cells.flatMap Cell.encode).length := length_le_flatMap hc
    simp only [Cell.encode, List.length_append, List.length_cons] at this
    omega

theorem reads_decode (r : Row) (hsize : r.size ≤ limit) (h : r.Sized) :
    Reads (decode limit) r.encode rest r := by
  rw [encode]
  apply (Decoder.reads_count hsize h.size).bind
  apply Reads.bind_pure (f := Row.mk)
  apply Decoder.reads_replicate
  intro c hc rest
  exact Cell.reads_decode c (h.values c hc)

theorem refuses_decode (r : Row) (hsize : limit < r.size) :
    Refuses (decode limit) (r.encode ++ rest) := by
  rw [encode, List.append_assoc]
  exact (Decoder.refuses_count hsize).bind

end Row

namespace ColumnSet

theorem ext {s t : ColumnSet} (h : ∀ c, c ∈ s.columns ↔ c ∈ t.columns) : s = t := by
  obtain ⟨ss, _⟩ := s
  obtain ⟨ts, _⟩ := t
  obtain rfl : ss = ts := NatSet.ext_mem h
  rfl

theorem size_le (s : ColumnSet) : s.columns.size ≤ Word.count32 := by
  have hdistinct : s.columns.toList.Nodup := s.columns.ascending.imp Nat.ne_of_lt
  have hbounded : s.columns.toList ⊆ List.range Word.count32 :=
    fun c hc => List.mem_range.2 (s.bounded c hc)
  rw [← List.length_range (n := Word.count32)]
  exact (hdistinct.subperm hbounded).length_le

end ColumnSet

namespace SaltScheme

theorem reads_decodeColumns {ns : List Nat} (hbound : ∀ n ∈ ns, n < Word.count32)
    (hascending : ns.Pairwise (· < ·)) (before : ColumnSet) (hfresh : ∀ n ∈ ns, n ∉ before.columns) :
    ∃ s, (∀ rest, Reads (decodeColumns ns.length before) (ns.flatMap Wire.varint) rest s) ∧
      ∀ c, c ∈ s.columns ↔ c ∈ ns ∨ c ∈ before.columns := by
  induction ns generalizing before with
  | nil => exact ⟨before, fun _ => .pure before, by simp⟩
  | cons n ns ih =>
    have hn := hbound n List.mem_cons_self
    have hrest := List.pairwise_cons.1 hascending
    have hnext : ∀ k ∈ ns, k ∉ (before.insert n hn).columns := by
      intro k hk hmem
      rcases NatSet.mem_insert.1 hmem with rfl | hmem
      · exact Nat.lt_irrefl k (hrest.1 k hk)
      · exact hfresh k (List.mem_cons_of_mem n hk) hmem
    obtain ⟨s, hreads, hmem⟩ := ih (fun k hk => hbound k (List.mem_cons_of_mem n hk)) hrest.2 _ hnext
    refine ⟨s, fun rest => ?_, fun c => ?_⟩
    · apply Reads.offset_bind
      intro start
      rw [List.flatMap_cons]
      apply (Decoder.reads_varint (Nat.lt_trans hn (by decide))).bind
      rw [dif_pos hn, if_neg (hfresh n List.mem_cons_self)]
      exact hreads rest
    · rw [hmem, List.mem_cons, ColumnSet.insert, NatSet.mem_insert, or_assoc]
      exact or_left_comm

theorem reads_decode (s : SaltScheme) : Reads decode s.encode rest s := by
  cases s with
  | allSalted =>
    apply (Decoder.reads_byte 0).bind_last
    rw [if_pos rfl]
    exact .pure allSalted
  | noneSalted =>
    apply (Decoder.reads_byte 2).bind_last
    rw [if_neg (by decide), if_pos rfl]
    exact .pure noneSalted
  | unsalted s =>
    have hsize := length_le_length_flatMap Wire.varint_ne_nil s.columns.toList
    have hfew := Nat.lt_of_le_of_lt s.size_le (by decide : Word.count32 < Word.count64)
    obtain ⟨t, hreads, hmem⟩ := reads_decodeColumns s.bounded s.columns.ascending .empty
      (fun _ _ => List.not_mem_nil)
    obtain rfl : t = s := ColumnSet.ext fun c => by
      rw [hmem]
      exact or_iff_left List.not_mem_nil
    rw [encode, ← List.singleton_append, List.append_assoc]
    apply (Decoder.reads_byte 1).bind
    rw [if_neg (by decide), if_neg (by decide), if_pos rfl]
    apply Reads.remaining_bind
    apply (Decoder.reads_count _ hfew).bind
    · exact (hreads rest).bind_pure
    · simp only [NatSet.size, List.length_append]
      omega

end SaltScheme

end SkipChain
