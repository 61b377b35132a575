import SkipChain.Proofs.Morsel.Normal
import SkipChain.Proofs.Morsel.Order
import SkipChain.Proofs.Morsel.Spelling
/-!
Morsels that have been cut short. No beginning of a written morsel is accepted: where the cut falls
into a section, that section is malformed, and where it falls between two, the part for the last
ledger is missing. The checksum is not needed for this.
-/
namespace SkipChain

open Decoder (Reads Refuses Yields)

theorem Decoder.Reads.of_eval_bind {ε α β : Type} {read : Decoder ε α} {next : α → Decoder ε β}
    {bytes rest : Bytes} {a : α} {b : β} {P : β → Prop} (h : Reads read bytes rest a)
    (hnext : Yields (next a) fun _ b => P b)
    (hread : (read >>= next).eval (bytes ++ rest) = .ok b) : P b := by
  have hrun : (read >>= next) ⟨0, bytes ++ rest⟩ = next a ⟨0 + bytes.length, rest⟩ := by
    simp only [Bind.bind, EStateM.bind, h 0]
  unfold eval at hread
  simp only [EStateM.run, Cursor.start, hrun] at hread
  split at hread
  · next hfound =>
    cases hread
    obtain ⟨-, -, hb⟩ := hnext _ _ _ hfound
    exact hb
  · cases hread

namespace Section

variable {limit : Nat} {before after rest : Bytes} {s t : Section} {earlier ss : List Section}

theorem refuses_decode_of_length (h : Word.count64 ≤ s.body.length) :
    Refuses (decode limit) (s.encode ++ rest) := by
  rw [encode, Wire.tagged, ← List.singleton_append, List.append_assoc]
  apply (Decoder.reads_byte s.tag).bind_refuses
  rw [Wire.block, List.append_assoc]
  apply Refuses.bind
  apply Refuses.offset_bind
  intro start
  exact (Decoder.refuses_varint h).bind

theorem eq_of_decode_encode {offset : Nat} {c : Cursor}
    (h : decode limit ⟨offset, s.encode ++ rest⟩ = .ok t c) :
    t = s ∧ c.rest = rest := by
  rcases Nat.lt_or_ge s.body.length Word.count64 with hsize | hsize
  · rcases Nat.lt_or_ge limit s.body.length with hlimit | hlimit
    · have hrefused : Refuses (decode limit) (s.encode ++ rest) := refuses_decode s hlimit
      obtain ⟨e, c', he⟩ := hrefused offset
      rw [he] at h
      cases h
    · have hread : Reads (decode limit) s.encode rest s := by
        rw [encode, Wire.tagged, ← List.singleton_append]
        apply (Decoder.reads_byte s.tag).bind
        apply (Decoder.reads_count hlimit hsize).bind
        exact (Decoder.reads_take s.body).bind_pure
      rw [hread offset] at h
      cases h
      exact ⟨rfl, rfl⟩
  · have hrefused : Refuses (decode limit) (s.encode ++ rest) := refuses_decode_of_length hsize
    obtain ⟨e, c', he⟩ := hrefused offset
    rw [he] at h
    cases h

theorem Spells.of_encode (h : Spells limit before earlier)
    (hall : before ++ after = ss.flatMap encode) :
    ∃ later, ss = earlier ++ later ∧ after = later.flatMap encode := by
  induction h generalizing ss with
  | nil => exact ⟨ss, rfl, hall⟩
  | @cons first more s earlier hfirst _ ih =>
    cases ss with
    | nil =>
      have hpos := length_pos_of_reads hfirst
      rw [List.flatMap_nil, List.append_eq_nil_iff, List.append_eq_nil_iff] at hall
      rw [hall.1.1] at hpos
      cases hpos
    | cons t ss =>
      rw [List.append_assoc, List.flatMap_cons] at hall
      have hread := hfirst (more ++ after) 0
      rw [hall] at hread
      obtain ⟨rfl, hrest⟩ := eq_of_decode_encode hread
      obtain ⟨later, rfl, hafter⟩ := ih hrest
      exact ⟨later, rfl, hafter⟩

end Section

namespace Morsel

variable {limits : Limits} {m : Morsel} {data cut : Bytes} {n : Nat}

theorem middle_take (sections : Bytes) (hlong : headerLength + trailerLength ≤ n)
    (h : n < (withChecksum (m.header ++ sections)).length) :
    middle ((withChecksum (m.header ++ sections)).take n) =
        sections.take (n - (headerLength + trailerLength)) ∧
      n - (headerLength + trailerLength) < sections.length := by
  have htrailer : trailerLength = 4 := rfl
  have hlength : m.header.length = headerLength := m.length_header
  have hcut : ((withChecksum (m.header ++ sections)).take n).length = n :=
    List.length_take_of_le (Nat.le_of_lt h)
  rw [withChecksum, List.length_append, Bytes.length_bigEndian, List.length_append] at h
  refine ⟨?_, by omega⟩
  rw [middle, hcut, List.take_take, Nat.min_eq_left (Nat.sub_le _ _), withChecksum,
    List.take_append_of_le_length (by rw [List.length_append]; omega), List.drop_take,
    ← hlength, List.drop_left, Nat.sub_sub, Nat.add_comm trailerLength]

theorem length_of_eval_decodeList {names : List String}
    (h : (decodeList limits).eval m.encodeList = .ok names) :
    names.length = m.ledgers.length := by
  rcases Nat.lt_or_ge m.ledgers.length Word.count64 with hsize | hsize
  · have hcount : Reads (liftM Decoder.varint : Decoder MorselError Nat)
        (Wire.varint m.ledgers.length) (m.names.flatMap Wire.text) m.ledgers.length :=
      (Decoder.reads_varint hsize).lift
    refine hcount.of_eval_bind (P := fun names => names.length = m.ledgers.length) ?_ h
    apply Yields.guard
    intro
    apply Yields.guard
    intro
    apply (yields_decodeNames _ []).bind
    rintro k names ⟨hlength, -⟩
    apply Decoder.yields_remaining.bind
    intro l extra _
    apply Yields.guard
    intro
    exact .pure hlength
  · have hrefused : Refuses (decodeList limits) m.encodeList :=
      (Decoder.refuses_varint hsize).lift.bind
    obtain ⟨e, he⟩ := Decoder.eval_of_refuses hrefused
    rw [he] at h
    cases h

theorem count_among_ofPackage (ps : List Package) :
    (MorselTag.among (ps.map MorselSection.ofPackage)).count .ledger = ps.length := by
  induction ps with
  | nil => rfl
  | cons p ps ih =>
    rw [List.map_cons, MorselTag.among_cons (t := .ledger) rfl, List.count_cons_self, ih,
      List.length_cons]

theorem count_among_sections (m : Morsel) :
    (MorselTag.among m.sections).count .ledger = m.ledgers.length := by
  rw [sections_eq, MorselTag.among_cons (t := .ledgers) rfl, List.count_cons_of_ne (by decide), later,
    MorselTag.among_append, List.count_append, count_among_ofPackage]
  cases m.notes <;> cases m.assets <;> simp [MorselTag.among, MorselTag.ofCode?_code]

theorem count_ledger_pos {before after : List Section} (h : m.ledgers ≠ [])
    (hall : m.sections = before ++ after) (hafter : after ≠ []) :
    0 < (MorselTag.among after).count .ledger := by
  have hparts : m.ledgers.map MorselSection.ofPackage ≠ [] := by simpa using h
  have hlast : after.getLast? = (m.ledgers.map MorselSection.ofPackage).getLast? := by
    rw [← List.getLast?_append_of_ne_nil before hafter, ← hall, sections_eq, later,
      ← List.cons_append, List.getLast?_append_of_ne_nil _ hparts]
  rw [List.getLast?_eq_some_getLast hparts] at hlast
  obtain ⟨p, -, hp⟩ := List.mem_map.1 (List.getLast_mem hparts)
  have hmem := List.mem_of_getLast? hlast
  rw [← hp] at hmem
  exact List.count_pos_iff.2 (List.mem_filterMap.2 ⟨_, hmem, MorselTag.ofCode?_code .ledger⟩)

/-- A written morsel is not accepted when it is cut short, wherever it is cut and whatever the
limits. -/
theorem decode_truncated (h : m.encode = .ok data) (hcut : cut <+: data) (hne : cut ≠ data)
    (limits : Limits) : ∃ e, decode limits cut = .error e := by
  obtain ⟨hvalid, rfl⟩ := encode_eq_ok_iff.1 h
  have hledgers : m.ledgers ≠ [] := ((sound_of_validate hvalid).validate_eq_ok_iff.1 hvalid).1
  have hshort := Nat.lt_of_le_of_ne hcut.length_le fun heq => hne (hcut.eq_of_length heq)
  cases hread : decode limits cut with
  | error e => exact ⟨e, rfl⟩
  | ok m' =>
    obtain ⟨hlong, hsections⟩ := decode_spec hread
    obtain ⟨hmiddle, hmissing⟩ := middle_take (m.sections.flatMap Section.encode) hlong hshort
    rw [List.prefix_iff_eq_take.1 hcut, hmiddle] at hsections
    obtain ⟨first, rest, contents, hsplit, htag, hnames, haccepts, hm, -⟩ :=
      decodeSections_spec hsections
    -- the sections that are read are the first ones of the morsel, and not all
    obtain ⟨later, hall, hafter⟩ :=
      (Section.split_eq_iff.1 hsplit).of_encode (List.take_append_drop _ _)
    have hlater : later ≠ [] := by
      rintro rfl
      rw [List.flatMap_nil, List.drop_eq_nil_iff] at hafter
      omega
    have hlast := count_ledger_pos hledgers hall hlater
    -- among them is the list of ledgers, which names one for every part
    have hlist : first = ⟨MorselTag.ledgers.code, m.encodeList⟩ := by
      rw [sections_eq, List.cons_append] at hall
      exact (List.cons.inj hall).1.symm
    rw [hlist] at hnames
    have hlisted := length_of_eval_decodeList hnames
    have hfound : (MorselTag.among (first :: rest)).count .ledger = m'.names.length := by
      rw [MorselTag.among_cons htag, MorselSection.among_eq haccepts,
        List.count_cons_of_ne (by decide), MorselSection.count_ledger, length_names, hm]
    have hcount := count_among_sections m
    rw [hall, MorselTag.among_append, List.count_append] at hcount
    omega

/-- A morsel whose assets are such that the first bytes of its ledger's part are the checksum of all
that stands before them. -/
def misleading : Morsel :=
  ⟨.sha256, some "hi", some [63, 45, 167, 250], [.new (.new .table "a")]⟩

/-- Cut after these bytes, it has whole sections and a checksum that matches. -/
theorem decode_truncated_misleading :
    ∃ data cut, misleading.encode = .ok data ∧ (cut <+: data ∧ cut ≠ data) ∧
      withChecksum (cut.take (cut.length - trailerLength)) = cut ∧
      (Section.split Limits.default.maxSectionBytes (middle cut)).2 = none ∧
      ∃ e, decode .default cut = .error e := by
  have hvalid : misleading.validate = .ok () := by decide +kernel
  have hdata := encode_eq_ok_iff.2 ⟨hvalid, rfl⟩
  let data := withChecksum (misleading.header ++ misleading.sections.flatMap Section.encode)
  have hcut : (data.take 27 ≠ data) ∧
      withChecksum ((data.take 27).take ((data.take 27).length - trailerLength)) = data.take 27 ∧
      (Section.split Limits.default.maxSectionBytes (middle (data.take 27))).2 = none := by
    decide +kernel
  exact ⟨data, data.take 27, hdata, ⟨List.take_prefix 27 data, hcut.1⟩, hcut.2.1, hcut.2.2,
    decode_truncated hdata (List.take_prefix 27 data) hcut.1 .default⟩

end Morsel

end SkipChain
