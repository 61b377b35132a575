import SkipChain.Morsel.Section
import SkipChain.Proofs.Path.Check
import SkipChain.Proofs.Table.Codec
/-!
The sections of a morsel and their contents are read back from their encodings, if they are within
the limits; a section that is not is refused.
-/
namespace SkipChain

open Decoder (Reads Refuses)

variable {α : Type} {bytes rest : Bytes} {limits : Limits} {limit : Nat}

theorem Decoder.Reads.lift {read : Decoder ValueError α} {a : α} (h : Reads read bytes rest a) :
    Reads (liftM read : Decoder MorselError α) bytes rest a := h.mapError

theorem Decoder.Refuses.lift {read : Decoder ValueError α} (h : Refuses read bytes) :
    Refuses (liftM read : Decoder MorselError α) bytes := h.mapError

namespace Limits

structure Sized (limits : Limits) : Prop where
  ledgers : limits.maxLedgers < Word.count64
  sectionBytes : limits.maxSectionBytes < Word.count64
  pathEntries : limits.maxPathEntries < Word.count64
  cellsPerRow : limits.maxCellsPerRow < Word.count64

end Limits

namespace Section

theorem reads_decode (s : Section) (h : s.body.length ≤ limit) (hlimit : limit < Word.count64) :
    Reads (decode limit) s.encode rest s := by
  rw [encode, Wire.tagged, ← List.singleton_append]
  apply (Decoder.reads_byte s.tag).bind
  apply (Decoder.reads_count h (Nat.lt_of_le_of_lt h hlimit)).bind
  exact (Decoder.reads_take s.body).bind_pure

theorem refuses_decode (s : Section) (h : limit < s.body.length) :
    Refuses (decode limit) (s.encode ++ rest) := by
  rw [encode, Wire.tagged, ← List.singleton_append, List.append_assoc]
  apply (Decoder.reads_byte s.tag).bind_refuses
  rw [Wire.block, List.append_assoc]
  exact (Decoder.refuses_count h).bind

theorem encode_ne_nil (s : Section) : s.encode ≠ [] := List.cons_ne_nil _ _

theorem readAll_encode {ss : List Section} (h : ∀ s ∈ ss, s.body.length ≤ limit)
    (hlimit : limit < Word.count64) {fuel : Nat} (hfuel : ss.length ≤ fuel) (offset : Nat) :
    readAll limit fuel ⟨offset, ss.flatMap encode⟩ = (ss, none) := by
  induction ss generalizing fuel offset with
  | nil => cases fuel <;> rfl
  | cons s ss ih =>
    cases fuel with
    | zero => simp at hfuel
    | succ fuel =>
      have hread : Reads (decode limit) s.encode (ss.flatMap encode) s :=
        reads_decode s (h s List.mem_cons_self) hlimit
      have hrest := ih (fun s hs => h s (List.mem_cons_of_mem _ hs)) (Nat.le_of_succ_le_succ hfuel)
      rw [List.flatMap_cons, readAll, if_neg (by simp [encode_ne_nil]), hread]
      simp only [hrest]

theorem readAll_exceeding {ss : List Section} (h : ∃ s ∈ ss, limit < s.body.length)
    (hlimit : limit < Word.count64) {fuel : Nat} (hfuel : ss.length ≤ fuel) (offset : Nat) :
    ∃ e, (readAll limit fuel ⟨offset, ss.flatMap encode⟩).2 = some e := by
  induction ss generalizing fuel offset with
  | nil => simp at h
  | cons s ss ih =>
    cases fuel with
    | zero => simp at hfuel
    | succ fuel =>
      rw [List.flatMap_cons, readAll, if_neg (by simp [encode_ne_nil])]
      rcases Nat.lt_or_ge limit s.body.length with hs | hs
      · have hrefused : Refuses (decode limit) (s.encode ++ ss.flatMap encode) := refuses_decode s hs
        obtain ⟨e, c, hread⟩ := hrefused offset
        exact ⟨e, by rw [hread]⟩
      · rw [reads_decode s hs hlimit offset]
        apply ih _ (Nat.le_of_succ_le_succ hfuel)
        obtain ⟨t, ht, hlong⟩ := h
        rcases List.mem_cons.1 ht with rfl | ht
        · omega
        · exact ⟨t, ht, hlong⟩

theorem split_encode {ss : List Section} (h : ∀ s ∈ ss, s.body.length ≤ limit)
    (hlimit : limit < Word.count64) : split limit (ss.flatMap encode) = (ss, none) :=
  readAll_encode h hlimit (length_le_length_flatMap encode_ne_nil ss) 0

/-- A body over the limit is noticed, though sections before it may have been read. -/
theorem split_exceeding {ss : List Section} (h : ∃ s ∈ ss, limit < s.body.length)
    (hlimit : limit < Word.count64) : ∃ e, (split limit (ss.flatMap encode)).2 = some e :=
  readAll_exceeding h hlimit (length_le_length_flatMap encode_ne_nil ss) 0

end Section

namespace RowParsing

theorem reads_decodeOptional {o : Option String}
    (h : (Wire.optionalText o).length < Word.count64) :
    Reads decodeOptional (Wire.optionalText o) rest o := by
  cases o with
  | none =>
    apply (Decoder.reads_byte 0).lift.bind_last
    rw [if_pos rfl]
    exact .pure none
  | some s =>
    have hs := Wire.length_le_block (Utf8.encode s)
    simp only [Wire.optionalText, Wire.text, List.length_cons] at h
    rw [Wire.optionalText, ← List.singleton_append]
    apply (Decoder.reads_byte 1).lift.bind
    rw [if_neg (by decide), if_pos rfl]
    exact (Decoder.reads_text (by omega)).lift.bind_pure

theorem flags_bits (p : RowParsing) :
    ¬3 < p.flags ∧ decide (p.flags &&& 1 ≠ 0) = p.trimTokens ∧
      decide (p.flags &&& 2 ≠ 0) = p.skipBlank := by
  unfold flags
  cases p.trimTokens <;> cases p.skipBlank <;> decide

theorem reads_decode (p : RowParsing) (h : p.encode.length < Word.count64) :
    Reads decode p.encode rest p := by
  have hdelimiter := Wire.length_le_block (Utf8.encode p.rowDelimiter)
  simp only [encode, Wire.text, List.length_append] at h
  simp only [encode, List.append_assoc]
  apply (Decoder.reads_text (by omega)).lift.bind
  apply (reads_decodeOptional (by omega)).bind
  apply (reads_decodeOptional (by omega)).bind
  rw [← List.append_nil [p.flags]]
  apply (Decoder.reads_byte p.flags).lift.bind
  obtain ⟨hflags, htrim, hskip⟩ := flags_bits p
  rw [if_neg hflags, htrim, hskip]
  exact .pure p

end RowParsing

namespace Path

theorem reads_decodeTargets {ns : List Nat} (hbound : ∀ n ∈ ns, n < Word.count64)
    (hascending : ns.Pairwise (· < ·)) {before : NatSet} (hfresh : ∀ n ∈ ns, n ∉ before) :
    Reads (decodeTargets ns.length before) (ns.flatMap Wire.varint) rest
      (ns.foldl NatSet.insert before) := by
  induction ns generalizing before with
  | nil => exact .pure before
  | cons n ns ih =>
    have hrest := List.pairwise_cons.1 hascending
    rw [List.flatMap_cons]
    apply (Decoder.reads_varint (hbound n List.mem_cons_self)).lift.bind
    rw [if_neg (hfresh n List.mem_cons_self)]
    apply ih (fun k hk => hbound k (List.mem_cons_of_mem n hk)) hrest.2
    intro k hk hmem
    rcases NatSet.mem_insert.1 hmem with rfl | hmem
    · exact Nat.lt_irrefl k (hrest.1 k hk)
    · exact hfresh k (List.mem_cons_of_mem n hk) hmem

theorem reads_decodeEntry (e : PathEntry) :
    Reads decodeEntry (e.input.elim [0] (fun input => 1 :: input.bytes) ++ e.hash.bytes) rest e := by
  obtain ⟨hash, input⟩ := e
  cases input with
  | none =>
    apply (Decoder.reads_byte 0).lift.bind
    rw [if_pos rfl, pure_bind]
    exact (Decoder.reads_digest hash).lift.bind_pure
  | some input =>
    rw [Option.elim_some, ← List.singleton_append, List.append_assoc]
    apply (Decoder.reads_byte 1).lift.bind
    rw [if_neg (by decide), if_pos rfl]
    apply (Decoder.reads_digest input).lift.map.bind
    exact (Decoder.reads_digest hash).lift.bind_pure

theorem reads_decodeEntries {es : List (Nat × PathEntry)} (hbound : ∀ e ∈ es, e.1 < Word.count64)
    (hascending : es.Pairwise fun e f => e.1 < f.1) {last : Option Nat}
    (hlast : ∀ e ∈ es, ∀ row ∈ last, row < e.1) (before : NatMap PathEntry) :
    Reads (decodeEntries es.length last before) (es.flatMap fun e => encodeEntry e.1 e.2) rest
      (before.insertAll es) := by
  induction es generalizing last before with
  | nil => exact .pure before
  | cons e es ih =>
    have hrest := List.pairwise_cons.1 hascending
    have hnext : ¬last.any (e.1 ≤ ·) := by
      cases hl : last with
      | none => simp
      | some row =>
        have := hlast e List.mem_cons_self row hl
        simp
        omega
    rw [List.flatMap_cons, encodeEntry, List.append_assoc, List.append_assoc]
    apply (Decoder.reads_varint (hbound e List.mem_cons_self)).lift.bind
    rw [if_neg hnext, ← List.append_assoc]
    apply (reads_decodeEntry e.2).bind
    apply ih (fun f hf => hbound f (List.mem_cons_of_mem e hf)) hrest.2
    rintro f hf row ⟨⟩
    exact hrest.1 f hf

theorem reads_targets (p : Path) (hhigh : p.high < Word.count64) :
    Reads (decodeTargets p.targets.size .empty) (p.targets.toList.flatMap Wire.varint) rest
      p.targets := by
  obtain ⟨-, htarget, -, -⟩ := PathParts.fault?_eq_none_iff.1 p.faultless
  have hread : Reads (decodeTargets p.targets.size .empty) _ rest _ := reads_decodeTargets
    (fun n hn => Nat.lt_of_le_of_lt (htarget n hn).2.1 hhigh) p.targets.ascending
    (fun _ _ => List.not_mem_nil)
  rwa [show p.targets.toList.foldl NatSet.insert .empty = p.targets from p.targets.ofList_toList]
    at hread

theorem reads_entries (p : Path) (hhigh : p.high < Word.count64) :
    Reads (decodeEntries p.entries.size none .empty)
      (p.entries.toList.flatMap fun e => encodeEntry e.1 e.2) rest p.entries := by
  obtain ⟨-, -, hentry, -⟩ := PathParts.fault?_eq_none_iff.1 p.faultless
  have hread : Reads (decodeEntries p.entries.size none .empty) _ rest _ := reads_decodeEntries
    (fun e he => Nat.lt_of_le_of_lt (hentry e.1 e.2 (NatMap.mem_toList_iff.1 he)).2 hhigh)
    p.entries.ascending (by simp) .empty
  rwa [show NatMap.insertAll .empty p.entries.toList = p.entries from p.entries.ofList_toList]
    at hread

variable {p : Path}

theorem reads_decode (hhigh : p.high < Word.count64) (htargets : p.targets.size ≤ limit)
    (hentries : p.entries.size ≤ limit) (hlimit : limit < Word.count64) :
    Reads (decode limit) p.encode rest p := by
  have hlow := (PathParts.fault?_eq_none_iff.1 p.faultless).1.2
  simp only [encode, List.append_assoc]
  apply (Decoder.reads_varint (Nat.lt_of_le_of_lt hlow hhigh)).lift.bind
  apply (Decoder.reads_varint hhigh).lift.bind
  apply (Decoder.reads_count htargets (Nat.lt_of_le_of_lt htargets hlimit)).lift.bind
  apply (reads_targets p hhigh).bind
  apply (Decoder.reads_count hentries (Nat.lt_of_le_of_lt hentries hlimit)).lift.bind
  rw [← List.append_nil (p.entries.toList.flatMap _)]
  apply (reads_entries p hhigh).bind
  rw [ofParts_of_faultless p.faultless]
  exact .pure p

theorem refuses_decode (hhigh : p.high < Word.count64)
    (h : ¬(p.targets.size ≤ limit ∧ p.entries.size ≤ limit)) (hlimit : limit < Word.count64) :
    Refuses (decode limit) p.encode := by
  have hlow := (PathParts.fault?_eq_none_iff.1 p.faultless).1.2
  simp only [encode, List.append_assoc]
  apply (Decoder.reads_varint (Nat.lt_of_le_of_lt hlow hhigh)).lift.bind_refuses
  apply (Decoder.reads_varint hhigh).lift.bind_refuses
  rcases Nat.lt_or_ge limit p.targets.size with htargets | htargets
  · exact (Decoder.refuses_count htargets).lift.bind
  · have hentries : limit < p.entries.size := by omega
    apply (Decoder.reads_count htargets (Nat.lt_of_le_of_lt htargets hlimit)).lift.bind_refuses
    apply (reads_targets p hhigh).bind_refuses
    exact (Decoder.refuses_count hentries).lift.bind

end Path

@[simp] theorem LedgerKind.ofCode_code (k : LedgerKind) : ofCode k.code = .ok k := by
  cases k <;> rfl

namespace LedgerSection

def Fits (limits : Limits) : LedgerSection → Prop
  | path p => p.targets.size ≤ limits.maxPathEntries ∧ p.entries.size ≤ limits.maxPathEntries
  | sourceRow r => r.cells.size ≤ limits.maxCellsPerRow
  | _ => True

def Sized : LedgerSection → Prop
  | path p => p.high < Word.count64
  | sourceRow r => r.row < Word.count64
  | rawText t => t.first < Word.count64
  | attestation a => a.row < Word.count64
  | _ => True

variable {s : LedgerSection}

theorem reads_decodeRestText (s : String) : Reads decodeRestText (Utf8.encode s) [] s := by
  intro offset
  simp only [decodeRestText, List.append_nil, Utf8.decode_encode]

theorem reads_decode (hsized : s.Sized) (hfits : s.Fits limits) (hlimits : limits.Sized)
    (hbody : s.body.length < Word.count64) : Reads (decode limits s.tag) s.body [] s := by
  cases s with
  | identity kind name =>
    have hname := Wire.length_le_block (Utf8.encode name)
    simp only [body, Wire.text, List.length_cons] at hbody
    have hread : Reads decodeIdentity (kind.code :: Wire.text name) [] (kind, name) := by
      rw [← List.singleton_append]
      apply (Decoder.reads_byte _).lift.bind
      simp only [LedgerKind.ofCode_code]
      exact (Decoder.reads_text (by omega)).lift.bind_pure
    exact hread.bind_pure
  | origin text => exact (reads_decodeRestText text).bind_pure
  | notes text => exact (reads_decodeRestText text).bind_pure
  | assets bytes => exact Decoder.reads_takeRest.bind_pure
  | salt scheme => exact (SaltScheme.reads_decode scheme).lift.bind_pure
  | timechain t =>
    rw [body, ← List.singleton_append]
    apply (Decoder.reads_byte _).lift.bind
    exact (Decoder.reads_int64 _).lift.bind_pure
  | parsing p => exact (RowParsing.reads_decode p hbody).bind_pure
  | path p => exact (Path.reads_decode hsized hfits.1 hfits.2 hlimits.pathEntries).bind_pure
  | sourceRow r =>
    have hcells : r.cells.encode.length < Word.count64 := by
      simp only [body, List.length_append] at hbody
      omega
    apply (Decoder.reads_varint hsized).lift.bind
    exact (Row.reads_decode r.cells hfits (Row.sized_of_length hcells)).lift.bind_pure
  | rawText t =>
    apply (Decoder.reads_varint hsized).lift.bind
    exact Decoder.reads_takeRest.bind_pure
  | attestation a =>
    simp only [body, List.append_assoc]
    apply (Decoder.reads_varint hsized).lift.bind
    apply (Decoder.reads_digest _).lift.bind
    apply (Decoder.reads_int64 _).lift.bind
    exact Decoder.reads_takeRest.bind_pure

theorem refuses_decode (hsized : s.Sized) (hfits : ¬s.Fits limits) (hlimits : limits.Sized) :
    Refuses (decode limits s.tag) s.body := by
  cases s with
  | path p => exact (Path.refuses_decode hsized hfits hlimits.pathEntries).bind
  | sourceRow r =>
    apply (Decoder.reads_varint hsized).lift.bind_refuses
    have hrefused : Refuses (Row.decode limits.maxCellsPerRow) (r.cells.encode ++ []) :=
      Row.refuses_decode r.cells (Nat.not_le.1 hfits)
    rw [List.append_nil] at hrefused
    exact hrefused.lift.bind
  | _ => exact absurd trivial hfits

theorem ofBody_eq_ok (hsized : s.Sized) (hfits : s.Fits limits) (hlimits : limits.Sized)
    (hbody : s.body.length ≤ limits.maxSectionBytes) : ofBody limits s.tag s.body = .ok s := by
  have hread := reads_decode hsized hfits hlimits (Nat.lt_of_le_of_lt hbody hlimits.sectionBytes) 0
  rw [List.append_nil] at hread
  rw [ofBody, Cursor.start, hread]
  rfl

theorem ofBody_error (hsized : s.Sized) (hfits : ¬s.Fits limits) (hlimits : limits.Sized) :
    ∃ e, ofBody limits s.tag s.body = .error e := by
  obtain ⟨e, c, hread⟩ := refuses_decode hsized hfits hlimits 0
  exact ⟨e, by rw [ofBody, Cursor.start, hread]⟩

end LedgerSection

end SkipChain
