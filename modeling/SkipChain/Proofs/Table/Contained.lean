import SkipChain.Proofs.Table.Accepted
import SkipChain.Proofs.Wire.Contained
/-!
Salt schemes, cells and rows are read from the bytes that they take and from nothing else, though
lengths within them are held against what remains of the data.
-/
namespace SkipChain

open Decoder (Contained Causal Yields)

theorem Value.contained_decode (t : ColumnType) : Contained (decode t) := by
  cases t with
  | null => exact .pure null
  | hash => exact Decoder.contained_digest.bind fun _ => .pure _
  | bytes => exact Decoder.contained_block.bind fun _ => .pure _
  | string => exact Decoder.contained_text.bind fun _ => .pure _
  | long => exact Decoder.contained_int64.bind fun _ => .pure _
  | double => exact Decoder.contained_word64.bind fun _ => .pure _
  | date => exact Decoder.contained_int64.bind fun _ => .pure _

namespace Cell

theorem contained_decodeSalt : Contained decodeSalt :=
  Decoder.contained_digest.bind fun _ => .pure _

theorem contained_make (value : Value) (salt : Option Salt) :
    Contained (match make value salt with
      | .error e => throw e
      | .ok cell => pure cell : Decoder ValueError Cell) := by
  split
  · exact .throw _
  · exact .pure _

theorem contained_decode : Contained decode := by
  apply Decoder.contained_byte.bind
  intro code
  split
  · exact .throw _
  apply Decoder.contained_byte.bind
  intro flags
  apply Contained.guard
  apply (Value.contained_decode _).bind
  intro value
  apply Contained.ite
  · exact contained_decodeSalt.map.bind fun salt => contained_make value salt
  · exact (Contained.pure none).bind fun salt => contained_make value salt

end Cell

theorem Row.contained_decode (limit : Nat) : Contained (decode limit) := by
  apply (Decoder.contained_count limit).bind
  intro n
  exact (Decoder.contained_replicate Cell.contained_decode n).bind fun _ => .pure _

namespace SaltScheme

theorem contained_decodeColumns (n : Nat) (before : ColumnSet) :
    Contained (decodeColumns n before) := by
  induction n generalizing before with
  | zero => exact .pure before
  | succ n ih =>
    apply Contained.offset_bind
    intro start
    apply Decoder.contained_varint.bind
    intro column
    split
    · exact .guard (ih _)
    · exact .throw _

/-- Columns are not listed twice, so as many are read as the number in front says, and each takes at
least one byte. -/
theorem yields_columns (n : Nat) : Yields (decodeColumns n .empty) fun taken _ => n ≤ taken := by
  apply (yields_decodeColumns n .empty).mono
  rintro taken s ⟨hsize, hbytes⟩
  have hnone : (ColumnSet.empty.columns.toList.flatMap Wire.varint).length = 0 := rfl
  have hzero : ColumnSet.empty.columns.size = 0 := rfl
  have hfew : s.columns.size ≤ (s.columns.toList.flatMap Wire.varint).length :=
    length_le_length_flatMap Wire.varint_ne_nil s.columns.toList
  omega

theorem contained_decode : Contained decode := by
  apply Decoder.contained_byte.bind
  intro mode
  apply Contained.ite (.pure allSalted)
  apply Contained.ite (.pure noneSalted)
  apply Contained.ite
  · apply Contained.counted
    · exact fun n => (contained_decodeColumns n .empty).bind fun _ => .pure _
    · exact fun n => (yields_columns n).bind_pure
  · exact .throw _

end SaltScheme

/-- Every read of a part of a table depends only on the bytes that it takes. The cursor never goes
back and never leaves the data. A value that is read is read in the same place from all data that
agrees up to its end, be this data longer or cut off there. -/
theorem reads_causal :
    Causal Decoder.block ∧ Causal Decoder.text ∧ Causal Decoder.varint ∧
    (∀ limit, Causal (Decoder.count limit)) ∧ Causal Decoder.digest ∧ Causal SaltScheme.decode ∧
    Causal Cell.decode ∧ ∀ limit, Causal (Row.decode limit) :=
  ⟨Decoder.contained_block.causal, Decoder.contained_text.causal, Decoder.contained_varint.causal,
    fun limit => (Decoder.contained_count limit).causal, Decoder.contained_digest.causal,
    SaltScheme.contained_decode.causal, Cell.contained_decode.causal,
    fun limit => (Row.contained_decode limit).causal⟩

theorem reads_causal_cut :
    (∃ s, SaltScheme.decode (.within [7, 1, 2, 5, 3, 255] 1) =
        .ok s (.within [7, 1, 2, 5, 3, 255] 5) ∧
      SaltScheme.decode (.within [7, 1, 2, 5, 3] 1) = .ok s (.within [7, 1, 2, 5, 3] 5)) ∧
    (∃ e, SaltScheme.decode (.within [7, 1, 2, 5] 1) = .error e (.within [7, 1, 2, 5] 4)) ∧
    ∃ q, 1 ≤ q ∧ q ≤ 4 ∧
      SaltScheme.decode.stop (.within [7, 1, 2, 5] 1) = .within [7, 1, 2, 5] q := by
  obtain ⟨-, -, -, -, -, hscheme, -⟩ := reads_causal
  refine ⟨⟨_, rfl, ?_⟩, ⟨_, rfl⟩, hscheme.stays [7, 1, 2, 5] 1 (by decide)⟩
  exact hscheme.determined _ 1 _ 5 rfl _ (by decide) rfl

end SkipChain
