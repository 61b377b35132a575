import SkipChain.Proofs.Table.Codec
import SkipChain.Proofs.Wire.Yields
/-!
What is accepted as a cell, a row or a salt scheme has an encoding that is no longer than the bytes
it was read from, and that is read again.
-/
namespace SkipChain

open Decoder (Yields)

namespace Value

theorem yields_decode (t : ColumnType) : Yields (decode t) fun n v =>
    v.Sized ∧ v.encode.length ≤ n := by
  cases t with
  | null => exact .pure ⟨trivial, Nat.le_refl 0⟩
  | hash =>
    apply Decoder.yields_digest.bind
    rintro _ d rfl
    exact .pure ⟨trivial, Nat.le_of_eq d.length_bytes⟩
  | bytes => exact .bind_pure Decoder.yields_block
  | string => exact .bind_pure Decoder.yields_text
  | long =>
    apply Decoder.yields_int64.bind
    rintro _ k rfl
    exact .pure ⟨trivial, Nat.le_of_eq (Bytes.length_bigEndian 8 _)⟩
  | double =>
    apply Decoder.yields_word64.bind
    rintro _ bits rfl
    exact .pure ⟨trivial, Nat.le_of_eq (Bytes.length_bigEndian 8 _)⟩
  | date =>
    apply Decoder.yields_int64.bind
    rintro _ k rfl
    exact .pure ⟨trivial, Nat.le_of_eq (Bytes.length_bigEndian 8 _)⟩

end Value

namespace Cell

theorem make_eq_ok {value : Value} {salt : Option Salt} {c : Cell} (h : make value salt = .ok c) :
    c.value = value ∧ c.salt = salt := by
  unfold make at h
  split at h
  · cases h
  · cases h
    exact ⟨rfl, rfl⟩

theorem yields_decodeSalt : Yields decodeSalt fun n _ => n = Salt.width :=
  .bind_pure (R := fun n _ => n = Salt.width) Decoder.yields_digest

theorem yields_make {value : Value} {n : Nat} (hsized : value.Sized) (h : value.encode.length ≤ n)
    (salt : Option Salt) :
    Yields (match make value salt with
        | .error e => throw e
        | .ok cell => pure cell : Decoder ValueError Cell) fun _ c =>
      c.value.Sized ∧ c.encode.length ≤ 2 + n + (salt.elim [] Salt.bytes).length := by
  split
  · exact .throw _
  · next c hmake =>
    obtain ⟨rfl, rfl⟩ := make_eq_ok hmake
    apply Yields.pure
    refine ⟨hsized, ?_⟩
    simp only [encode, List.length_append, List.length_cons]
    omega

theorem yields_decode : Yields decode fun n c => c.value.Sized ∧ c.encode.length ≤ n := by
  apply Decoder.yields_byte.bind
  rintro _ code rfl
  split
  · exact .throw _
  apply Decoder.yields_byte.bind
  rintro _ flags rfl
  apply Yields.guard
  intro
  apply (Value.yields_decode _).bind
  rintro n value ⟨hsized, hvalue⟩
  apply Yields.ite
  · intro
    apply Yields.bind (P := fun n salt => ∃ s, salt = some s ∧ n = Salt.width)
    · apply Yields.map
      exact yields_decodeSalt.mono fun n s hn => ⟨s, rfl, hn⟩
    · rintro _ _ ⟨s, rfl, rfl⟩
      apply (yields_make hsized hvalue (some s)).mono
      rintro k c ⟨hsized, hc⟩
      rw [Option.elim_some, s.length_bytes] at hc
      exact ⟨hsized, by omega⟩
  · intro
    rw [pure_bind]
    apply (yields_make hsized hvalue none).mono
    rintro k c ⟨hsized, hc⟩
    rw [Option.elim_none, List.length_nil] at hc
    exact ⟨hsized, by omega⟩

end Cell

namespace Row

theorem yields_decode (limit : Nat) : Yields (decode limit) fun n r =>
    r.size ≤ limit ∧ r.Sized ∧ r.encode.length ≤ n := by
  apply (Decoder.yields_count limit).bind
  rintro n k ⟨hk, hfew, hn⟩
  apply (Decoder.yields_replicate Cell.yields_decode k).bind
  rintro m cells ⟨rfl, hvalues, hm⟩
  apply Yields.pure
  refine ⟨hk, ⟨hfew, hvalues⟩, ?_⟩
  rw [encode, List.length_append]
  exact Nat.add_le_add hn hm

end Row

namespace SaltScheme

theorem yields_decodeColumns (k : Nat) (before : ColumnSet) :
    Yields (decodeColumns k before) fun n s => s.columns.size = before.columns.size + k ∧
      (s.columns.toList.flatMap Wire.varint).length ≤
        (before.columns.toList.flatMap Wire.varint).length + n := by
  induction k generalizing before with
  | zero => exact .pure ⟨rfl, Nat.le_refl _⟩
  | succ k ih =>
    apply Decoder.yields_offset.bind
    rintro _ start rfl
    apply Decoder.yields_varint.bind
    rintro n column ⟨-, hn⟩
    split
    · next hcolumn =>
      apply Yields.guard
      intro hnew
      have hsize := NatSet.size_insert hnew
      have hbytes := NatSet.length_flatMap_insert Wire.varint hnew
      apply (ih _).mono
      rintro m s ⟨hrest, hm⟩
      simp only [ColumnSet.insert] at hrest hm
      exact ⟨by omega, by omega⟩
    · exact .throw _

theorem yields_decode : Yields decode fun n s => s.encode.length ≤ n := by
  apply Decoder.yields_byte.bind
  rintro _ mode rfl
  apply Yields.ite
  · intro
    exact .pure (Nat.le_refl 1)
  intro
  apply Yields.ite
  · intro
    exact .pure (Nat.le_refl 1)
  intro
  apply Yields.ite
  · intro
    apply Decoder.yields_remaining.bind
    rintro _ left rfl
    apply (Decoder.yields_count left).bind
    rintro n k ⟨-, -, hn⟩
    apply (yields_decodeColumns k .empty).bind
    rintro m s ⟨hsize, hm⟩
    apply Yields.pure
    have hnone : (ColumnSet.empty.columns.toList.flatMap Wire.varint).length = 0 := rfl
    have hzero : ColumnSet.empty.columns.size = 0 := rfl
    rw [hzero, Nat.zero_add] at hsize
    simp only [encode, List.length_append, List.length_cons, hsize]
    omega
  · intro
    exact .throw _

end SaltScheme

end SkipChain
