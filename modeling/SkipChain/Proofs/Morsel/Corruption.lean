import SkipChain.Proofs.Hash.Crc32
import SkipChain.Proofs.Morsel.Order
/-!
Damage to a morsel that has been written. What is changed within four bytes in a row, before the
checksum or in it, is always noticed.
-/
namespace SkipChain

namespace Bytes

/-- Byte strings of one length that differ, and only within the four places from `start` on. -/
structure AlteredAt (start : Nat) (data data' : Bytes) : Prop where
  length_eq : data'.length = data.length
  ne : data' ≠ data
  within : ∀ i, data'[i]? ≠ data[i]? → start ≤ i ∧ i < start + 4

namespace AlteredAt

variable {start n : Nat} {data data' : Bytes}

theorem getElem?_eq (altered : AlteredAt start data data') {i : Nat}
    (h : i < start ∨ start + 4 ≤ i) : data'[i]? = data[i]? := by
  by_contra hne
  have hwithin := altered.within i hne
  omega

theorem take_eq (altered : AlteredAt start data data') (h : n ≤ start) :
    data'.take n = data.take n := by
  apply List.ext_getElem?
  intro i
  rw [List.getElem?_take, List.getElem?_take]
  split
  · exact altered.getElem?_eq (.inl (by omega))
  · rfl

theorem drop_eq (altered : AlteredAt start data data') (h : start + 4 ≤ n) :
    data'.drop n = data.drop n := by
  apply List.ext_getElem?
  intro i
  rw [List.getElem?_drop, List.getElem?_drop]
  exact altered.getElem?_eq (.inr (by omega))

theorem take_eq_append (data : Bytes) (h : start + 4 ≤ n) :
    data.take n = data.take start ++ (data.drop start).take 4 ++ (data.take n).drop (start + 4) := by
  calc data.take n = (data.take n).take (start + 4) ++ (data.take n).drop (start + 4) :=
        (List.take_append_drop _ _).symm
    _ = data.take (start + 4) ++ (data.take n).drop (start + 4) := by
        rw [List.take_take, Nat.min_eq_left h]
    _ = data.take start ++ (data.drop start).take 4 ++ (data.take n).drop (start + 4) := by
        rw [List.take_add]

theorem checksum_ne (altered : AlteredAt start data data') (h : start + 4 ≤ n) :
    Crc32.checksum (data'.take n) ≠ Crc32.checksum (data.take n) := by
  have hafter : (data'.take n).drop (start + 4) = (data.take n).drop (start + 4) := by
    rw [List.drop_take, List.drop_take, altered.drop_eq (Nat.le_refl _)]
  rw [take_eq_append data' h, take_eq_append data h, hafter,
    altered.take_eq (Nat.le_refl _)]
  apply Crc32.checksum_ne_of_burst
  · rw [List.length_take, List.length_take, List.length_drop, List.length_drop, altered.length_eq]
  · exact List.length_take_le _ _
  · intro hburst
    apply altered.ne
    rw [← List.take_append_drop (start + 4) data', ← List.take_append_drop (start + 4) data,
      altered.drop_eq (Nat.le_refl _), List.take_add, List.take_add, hburst,
      altered.take_eq (Nat.le_refl _)]

end AlteredAt

theorem alteredAt_iff : AlteredAt start data data' ↔
    data'.length = data.length ∧ data' ≠ data ∧ data'.take start = data.take start ∧
      data'.drop (start + 4) = data.drop (start + 4) := by
  constructor
  · intro altered
    exact ⟨altered.length_eq, altered.ne, altered.take_eq (Nat.le_refl _),
      altered.drop_eq (Nat.le_refl _)⟩
  · rintro ⟨hlength, hne, hbefore, hafter⟩
    refine ⟨hlength, hne, fun i hi => ?_⟩
    by_contra houtside
    apply hi
    rcases Nat.lt_or_ge i start with hlow | hhigh
    · rw [← List.getElem?_take_of_lt hlow, hbefore, List.getElem?_take_of_lt hlow]
    · obtain ⟨k, rfl⟩ := Nat.exists_eq_add_of_le (show start + 4 ≤ i by omega)
      rw [← List.getElem?_drop, hafter, List.getElem?_drop]

instance (start : Nat) (data data' : Bytes) : Decidable (AlteredAt start data data') :=
  decidable_of_iff' _ alteredAt_iff

end Bytes

namespace Morsel

open Bytes (AlteredAt)

variable {limits : Limits} {m : Morsel} {data data' : Bytes} {start : Nat}

theorem trailer_of_decode (h : decode limits data = .ok m) :
    Bytes.toNat (data.drop (data.length - trailerLength)) =
      (Crc32.checksum (data.take (data.length - trailerLength))).toNat := by
  obtain ⟨hlength, -, hchecksum, -⟩ := decode_eq_ok_iff.1 h
  have hlast : (data.drop (data.length - trailerLength)).length = 4 := by
    have htrailer : headerLength + trailerLength = 12 := rfl
    have htrailer' : trailerLength = 4 := rfl
    rw [List.length_drop]
    omega
  have hbound := Bytes.toNat_lt (data.drop (data.length - trailerLength))
  rw [hlast] at hbound
  rw [← hchecksum, UInt32.toNat_ofNat_of_lt' hbound]

/-- Of bytes that differ only within four places in a row, before the checksum or in it, at most one
string is accepted, whatever the limits. -/
theorem decode_altered (h : decode limits data = .ok m) (altered : AlteredAt start data data')
    (hplace : start + 4 ≤ data.length - trailerLength ∨ start = data.length - trailerLength)
    (limits' : Limits) : ∃ e, decode limits' data' = .error e := by
  cases h' : decode limits' data' with
  | error e => exact ⟨e, rfl⟩
  | ok m' =>
    have hstored := trailer_of_decode h
    have hstored' := trailer_of_decode h'
    rw [altered.length_eq] at hstored'
    rcases hplace with hbefore | rfl
    · rw [altered.drop_eq hbefore, hstored] at hstored'
      exact absurd (UInt32.toNat_inj.1 hstored').symm (altered.checksum_ne hbefore)
    · rw [altered.take_eq (Nat.le_refl _), ← hstored] at hstored'
      have htrailer := Bytes.toNat_injective
        (by rw [List.length_drop, List.length_drop, altered.length_eq]) hstored'
      refine absurd ?_ altered.ne
      rw [← List.take_append_drop (data.length - trailerLength) data', htrailer,
        altered.take_eq (Nat.le_refl _), List.take_append_drop]

theorem decode_altered_interspersed :
    ∃ data', AlteredAt 14 interspersed data' ∧ 14 + 4 ≤ interspersed.length - trailerLength ∧
      ∃ e, decode ⟨2, 64, 0, 0⟩ data' = .error e := by
  have h : decode .default interspersed =
      .ok ⟨.sha256, none, none, [.new (.new .table "a"), .new (.new .log "b")]⟩ := by
    decide +kernel
  have altered : AlteredAt 14 interspersed
      (interspersed.take 14 ++ [98, 126, 2, 7] ++ interspersed.drop 18) := by decide +kernel
  exact ⟨_, altered, by decide, decode_altered h altered (.inl (by decide)) _⟩

end Morsel

end SkipChain
