import SkipChain.Proofs.Morsel.Accepted
import SkipChain.Proofs.Wire.Local
/-!
Which bytes a row of sections is read from. A length may be spelled with more bytes than it needs,
so the same sections have many spellings; but what is read in one place is read alike in any other,
so spellings can be joined and taken apart.
-/
namespace SkipChain

open Decoder (Reads Local)

variable {limit : Nat} {bytes before after : Bytes} {s : Section} {ss earlier later : List Section}

namespace Section

theorem local_decode (limit : Nat) : Local (decode limit) := by
  apply Decoder.local_byte.bind
  intro tag
  apply (Decoder.local_count limit).bind
  intro length
  apply (Decoder.local_take length).bind
  intro body
  exact .pure _

/-- These bytes are read as these sections, one after the other. -/
inductive Spells (limit : Nat) : Bytes → List Section → Prop where
  | nil : Spells limit [] []
  | cons {first more : Bytes} {s : Section} {ss : List Section}
    (hfirst : ∀ rest, Reads (decode limit) first rest s) (hmore : Spells limit more ss) :
    Spells limit (first ++ more) (s :: ss)

theorem length_pos_of_reads (h : ∀ rest, Reads (decode limit) bytes rest s) :
    0 < bytes.length := by
  apply List.length_pos_of_ne_nil
  rintro rfl
  cases h [] 0

theorem spells_encode (h : ∀ s ∈ ss, s.body.length ≤ limit) (hlimit : limit < Word.count64) :
    Spells limit (ss.flatMap encode) ss := by
  induction ss with
  | nil => exact .nil
  | cons s ss ih =>
    rw [List.flatMap_cons]
    exact .cons (fun _ => reads_decode s (h s List.mem_cons_self) hlimit)
      (ih fun t ht => h t (List.mem_cons_of_mem s ht))

theorem Spells.append (h : Spells limit before earlier) (h' : Spells limit after later) :
    Spells limit (before ++ after) (earlier ++ later) := by
  induction h with
  | nil => exact h'
  | cons hfirst _ ih =>
    rw [List.append_assoc]
    exact .cons hfirst ih

theorem Spells.of_append (h : Spells limit before earlier)
    (hall : Spells limit (before ++ after) ss) :
    ∃ later, ss = earlier ++ later ∧ Spells limit after later := by
  induction h generalizing ss with
  | nil => exact ⟨ss, rfl, hall⟩
  | @cons first more s earlier hfirst _ ih =>
    rw [List.append_assoc] at hall
    generalize hbytes : first ++ (more ++ after) = bytes at hall
    cases hall with
    | nil =>
      have := length_pos_of_reads hfirst
      simp only [List.append_eq_nil_iff] at hbytes
      rw [hbytes.1] at this
      cases this
    | @cons first' more' s' ss hfirst' hmore' =>
      -- both first sections are read from the same place
      have hread := hfirst (more ++ after) 0
      have hread' := hfirst' more' 0
      rw [hbytes, hread'] at hread
      simp only [EStateM.Result.ok.injEq, Cursor.mk.injEq] at hread
      obtain ⟨rfl, -, rfl⟩ := hread
      obtain ⟨later, rfl, hlater⟩ := ih hmore'
      exact ⟨later, rfl, hlater⟩

theorem spells_of_readAll {fuel : Nat} {c : Cursor} (hfuel : c.rest.length ≤ fuel)
    (h : readAll limit fuel c = (ss, none)) : Spells limit c.rest ss := by
  induction fuel generalizing c ss with
  | zero =>
    cases h
    rw [List.eq_nil_of_length_eq_zero (Nat.le_zero.1 hfuel)]
    exact .nil
  | succ fuel ih =>
    rw [readAll] at h
    split at h
    · next hempty =>
      cases h
      rw [List.isEmpty_iff.1 hempty]
      exact .nil
    · split at h
      · cases h
      · next s c' hread =>
        generalize hrest : readAll limit fuel c' = found at h
        obtain ⟨ss', fault⟩ := found
        cases h
        obtain ⟨first, hfirst, hreads⟩ := local_decode limit c s c' hread
        have hpos := length_pos_of_reads hreads
        rw [hfirst, List.length_append] at hfuel
        rw [hfirst]
        exact .cons hreads (ih (by omega) hrest)

theorem readAll_of_spells {fuel : Nat} (h : Spells limit bytes ss) (hfuel : bytes.length ≤ fuel)
    (offset : Nat) : readAll limit fuel ⟨offset, bytes⟩ = (ss, none) := by
  induction h generalizing fuel offset with
  | nil => cases fuel <;> rfl
  | @cons first more s ss hfirst _ ih =>
    have hpos := length_pos_of_reads hfirst
    rw [List.length_append] at hfuel
    cases fuel with
    | zero => omega
    | succ fuel =>
      have hne : ¬(first ++ more).isEmpty := by
        rw [List.isEmpty_iff, List.append_eq_nil_iff]
        rintro ⟨rfl, -⟩
        cases hpos
      rw [readAll, if_neg hne, hfirst more offset]
      dsimp only
      rw [ih (by omega)]

theorem split_eq_iff : split limit bytes = (ss, none) ↔ Spells limit bytes ss :=
  ⟨spells_of_readAll (Nat.le_refl _), fun h => readAll_of_spells h (Nat.le_refl _) 0⟩

end Section

end SkipChain
