import SkipChain.Proofs.Morsel.Package
/-!
A morsel that was put together is written exactly if it has ledgers and keeps its assets beside
notes, and what is written is read back within the limits and refused beyond them.
-/
namespace SkipChain

open Decoder (Reads Refuses)

variable {limits : Limits}

@[simp] theorem Algorithm.ofCode_code (a : Algorithm) : ofCode a.code = .ok a := by
  cases a <;> rfl

@[simp] theorem MorselTag.ofCode?_code (t : MorselTag) : ofCode? t.code = some t := by
  cases t <;> rfl

namespace Package

theorem name_ne_empty {p : Package} (h : p.validate = .ok ()) : p.name ≠ "" := by
  intro hname
  rw [validate, LedgerInfo.validate, if_pos (show p.info.name = "" from hname)] at h
  cases h

end Package

namespace Morsel

variable {m : Morsel} {bytes : Bytes}

/-- A morsel put together from an empty one: notes and assets are set, and packages added. -/
inductive Assembled : Morsel → Prop
  | new (algorithm : Algorithm) : Assembled (new algorithm)
  | notes {m : Morsel} (h : Assembled m) (text : String) : Assembled { m with notes := some text }
  | assets {m : Morsel} (h : Assembled m) (bytes : Bytes) :
    Assembled { m with assets := some bytes }
  | add {m m' : Morsel} {p : Package} (h : Assembled m) (hadd : m.add p = .ok m') : Assembled m'

theorem length_names (m : Morsel) : m.names.length = m.ledgers.length := List.length_map _

theorem mem_names_iff {name : String} : name ∈ m.names ↔ (m.ledger? name).isSome := by
  simp [names, ledger?]

theorem add_eq_ok_iff {p : Package} {m' : Morsel} : m.add p = .ok m' ↔
    p.validate = .ok () ∧ p.name ∉ m.names ∧ m' = { m with ledgers := m.ledgers ++ [p] } := by
  rw [add, mem_names_iff]
  rcases hp : p.validate with e | ⟨⟩
  · simp [bind, Except.bind]
  · by_cases hname : (m.ledger? p.name).isSome
    · simp [hname, bind, Except.bind, throw, throwThe, MonadExceptOf.throw]
    · simp [hname, bind, Except.bind, pure, Except.pure, eq_comm]

structure Sound (m : Morsel) : Prop where
  valid : ∀ p ∈ m.ledgers, p.validate = .ok ()
  distinct : m.names.Nodup

theorem Assembled.sound (h : Assembled m) : m.Sound := by
  induction h with
  | new => exact ⟨fun _ h => absurd h List.not_mem_nil, List.nodup_nil⟩
  | notes _ _ ih => exact ⟨ih.valid, ih.distinct⟩
  | assets _ _ ih => exact ⟨ih.valid, ih.distinct⟩
  | @add m m' p _ hadd ih =>
    obtain ⟨hvalid, hfresh, rfl⟩ := add_eq_ok_iff.1 hadd
    refine ⟨fun q hq => ?_, ?_⟩
    · rcases List.mem_append.1 hq with hq | hq
      · exact ih.valid q hq
      · rwa [List.mem_singleton.1 hq]
    · simp only [names, List.map_append, List.map_cons, List.map_nil]
      exact List.nodup_append.2 ⟨ih.distinct, by simp, by grind [names]⟩

theorem validateLedgers_eq_ok {before : List String} {ps : List Package}
    (hvalid : ∀ p ∈ ps, p.validate = .ok ()) (hdistinct : (ps.map Package.name).Nodup)
    (hfresh : ∀ p ∈ ps, p.name ∉ before) : validateLedgers before ps = .ok () := by
  induction ps generalizing before with
  | nil => rfl
  | cons p ps ih =>
    obtain ⟨hname, hrest⟩ := List.nodup_cons.1 hdistinct
    rw [validateLedgers, hvalid p List.mem_cons_self]
    simp only [bind, Except.bind]
    rw [if_neg (hfresh p List.mem_cons_self)]
    apply ih (fun q hq => hvalid q (List.mem_cons_of_mem p hq)) hrest
    intro q hq hmem
    rcases List.mem_cons.1 hmem with heq | hmem
    · exact hname (heq ▸ List.mem_map_of_mem hq)
    · exact hfresh q (List.mem_cons_of_mem p hq) hmem

theorem Sound.validate_eq_ok_iff (h : m.Sound) :
    m.validate = .ok () ↔ m.ledgers ≠ [] ∧ (m.assets.isSome → m.notes.isSome) := by
  have hledgers : validateLedgers [] m.ledgers = .ok () :=
    validateLedgers_eq_ok h.valid h.distinct (by simp)
  rw [validate, hledgers]
  cases m.ledgers <;> cases m.assets <;> cases m.notes <;>
    simp [bind, Except.bind, throw, throwThe, MonadExceptOf.throw]

theorem encode_eq_ok_iff : m.encode = .ok bytes ↔
    m.validate = .ok () ∧
      withChecksum (m.header ++ m.sections.flatMap Section.encode) = bytes := by
  rw [encode]
  rcases m.validate with e | ⟨⟩ <;> simp [bind, Except.bind, pure, Except.pure]

theorem reads_decodeNames {names before : List String} {rest : Bytes}
    (hbytes : (names.flatMap Wire.text).length < Word.count64) (hne : ∀ s ∈ names, s ≠ "")
    (hdistinct : names.Nodup) (hfresh : ∀ s ∈ names, s ∉ before) :
    Reads (decodeNames names.length before) (names.flatMap Wire.text) rest names := by
  induction names generalizing before with
  | nil => exact .pure []
  | cons name names ih =>
    obtain ⟨hname, hrest⟩ := List.nodup_cons.1 hdistinct
    have hlength : (Utf8.encode name).length ≤ (Wire.text name).length := Wire.length_le_block _
    rw [List.flatMap_cons, List.length_append] at hbytes
    rw [List.flatMap_cons]
    apply (Decoder.reads_text (by omega)).lift.bind
    rw [if_neg (hne name List.mem_cons_self), if_neg (hfresh name List.mem_cons_self)]
    apply Reads.bind_pure
    apply ih (by omega) (fun s hs => hne s (List.mem_cons_of_mem _ hs)) hrest
    intro s hs hmem
    rcases List.mem_cons.1 hmem with rfl | hmem
    · exact hname hs
    · exact hfresh s (List.mem_cons_of_mem _ hs) hmem

theorem reads_decodeList (sound : m.Sound) (hne : m.ledgers ≠ [])
    (hcount : m.ledgers.length ≤ limits.maxLedgers) (hlimits : limits.Sized)
    (hbytes : m.encodeList.length < Word.count64) :
    Reads (decodeList limits) m.encodeList [] m.names := by
  have hnames : ∀ s ∈ m.names, s ≠ "" := by
    intro s hs
    obtain ⟨p, hp, rfl⟩ := List.mem_map.1 hs
    exact Package.name_ne_empty (sound.valid p hp)
  have hlength := m.length_names
  rw [encodeList, List.length_append] at hbytes
  rw [encodeList]
  apply (Decoder.reads_varint (Nat.lt_of_le_of_lt hcount hlimits.ledgers)).lift.bind
  rw [if_neg (by simpa using hne), if_neg (Nat.not_lt.2 hcount), ← hlength,
    ← List.append_nil (m.names.flatMap _)]
  apply (reads_decodeNames (by omega) hnames sound.distinct (by simp)).bind
  apply Reads.remaining_bind
  exact .pure m.names

theorem refuses_decodeList (hcount : limits.maxLedgers < m.ledgers.length) :
    Refuses (decodeList limits) m.encodeList := by
  rw [encodeList]
  by_cases hsize : m.ledgers.length < Word.count64
  · apply (Decoder.reads_varint hsize).lift.bind_refuses
    rw [if_neg (by omega), if_pos hcount]
    exact Refuses.bind (.throw _)
  · exact (Decoder.refuses_varint (Nat.not_lt.1 hsize)).lift.bind

end Morsel

namespace MorselSection

variable {names : List String} {index : Nat} {ps : List Package}

def ofPackage (p : Package) : Section := ⟨MorselTag.ledger.code, p.encode⟩

theorem decodeLedger_eq {p : Package} (hname : names[index]? = some p.name) (body : Bytes) :
    decodeLedger limits names index body = (do
      let q ← Package.decode limits index body
      if q.name ≠ p.name then throw (.ledgerMismatch index p.name q.name)
      return q) := by
  rw [decodeLedger, hname]

theorem ofSections_notes (text : String) (rest : List Section) :
    ofSections limits names .ledgers index (⟨MorselTag.notes.code, Utf8.encode text⟩ :: rest) =
      (notes text :: ·) <$> ofSections limits names .notes index rest := by
  have hread := Decoder.eval_of_reads (LedgerSection.reads_decodeRestText text)
  rw [ofSections]
  simp only [MorselTag.ofCode?_code, hread]
  rw [if_neg (by decide)]
  cases ofSections limits names .notes index rest <;> rfl

theorem ofSections_assets {last : MorselTag} (hlast : last = .ledgers ∨ last = .notes)
    (bytes : Bytes) (rest : List Section) :
    ofSections limits names last index (⟨MorselTag.assets.code, bytes⟩ :: rest) =
      (assets bytes :: ·) <$> ofSections limits names .assets index rest := by
  rw [ofSections]
  simp only [MorselTag.ofCode?_code]
  rw [if_neg (by rcases hlast with rfl | rfl <;> decide)]
  cases ofSections limits names .assets index rest <;> rfl

theorem ofSections_ledger (last : MorselTag) (p : Package) (rest : List Section) :
    ofSections limits names last index (ofPackage p :: rest) = (do
      let q ← decodeLedger limits names index p.encode
      return ledger q :: (← ofSections limits names .ledger (index + 1) rest)) := by
  have horder : outOfOrder last.code MorselTag.ledger.code MorselTag.ledger.repeatable = false := by
    cases last <;> decide
  rw [ofSections]
  simp only [ofPackage, MorselTag.ofCode?_code]
  rw [horder, if_neg Bool.false_ne_true]

theorem ofSections_ledgers (hnames : names.drop index = ps.map Package.name)
    (hdecode : ∀ p ∈ ps, ∀ i, Package.decode limits i p.encode = .ok p) (last : MorselTag) :
    ofSections limits names last index (ps.map ofPackage) = .ok (ps.map ledger) := by
  induction ps generalizing last index with
  | nil => rfl
  | cons p ps ih =>
    have hname : names[index]? = some p.name := by
      rw [← List.head?_drop, hnames]
      rfl
    have hrest : names.drop (index + 1) = ps.map Package.name := by
      rw [← List.tail_drop, hnames]
      rfl
    rw [List.map_cons, ofSections_ledger, decodeLedger_eq hname, hdecode p List.mem_cons_self]
    simp only [bind, Except.bind]
    rw [if_neg (not_not_intro rfl)]
    simp only [pure, Except.pure]
    rw [ih hrest fun q hq => hdecode q (List.mem_cons_of_mem p hq)]
    rfl

theorem ofSections_ledgers_error (hnames : names.drop index = ps.map Package.name)
    (h : ∃ p ∈ ps, ∀ i, ∃ e, Package.decode limits i p.encode = .error e) (last : MorselTag) :
    ∃ e, ofSections limits names last index (ps.map ofPackage) = .error e := by
  induction ps generalizing last index with
  | nil => simp at h
  | cons p ps ih =>
    have hname : names[index]? = some p.name := by
      rw [← List.head?_drop, hnames]
      rfl
    have hrest : names.drop (index + 1) = ps.map Package.name := by
      rw [← List.tail_drop, hnames]
      rfl
    rw [List.map_cons, ofSections_ledger]
    obtain ⟨q, hq, hrefused⟩ := h
    rcases List.mem_cons.1 hq with rfl | hq
    · obtain ⟨e, he⟩ := hrefused index
      rw [decodeLedger_eq hname, he]
      exact ⟨e, rfl⟩
    · apply exists_error_bind
      intro first
      obtain ⟨e, he⟩ := ih hrest ⟨q, hq, hrefused⟩ .ledger
      rw [he]
      exact ⟨e, rfl⟩

end MorselSection

namespace Morsel

variable {m : Morsel} {bytes : Bytes}

def contents (m : Morsel) : List MorselSection :=
  (m.notes.map .notes).toList ++ (m.assets.map .assets).toList ++ m.ledgers.map .ledger

theorem filterMap_contents (m : Morsel) :
    m.contents.filterMap MorselSection.package? = m.ledgers := by
  rw [contents, List.filterMap_append, List.filterMap_append, List.filterMap_map]
  have hledgers : m.ledgers.filterMap (MorselSection.package? ∘ .ledger) = m.ledgers :=
    List.filterMap_some
  rw [hledgers]
  cases m.notes <;> cases m.assets <;> rfl

theorem findSome?_notes (m : Morsel) : m.contents.findSome? MorselSection.notes? = m.notes := by
  have hledgers : (m.ledgers.map .ledger).findSome? MorselSection.notes? = none := by
    simp [MorselSection.notes?]
  rw [contents, List.findSome?_append, hledgers]
  cases m.notes <;> cases m.assets <;> rfl

theorem findSome?_assets (m : Morsel) : m.contents.findSome? MorselSection.assets? = m.assets := by
  have hledgers : (m.ledgers.map .ledger).findSome? MorselSection.assets? = none := by
    simp [MorselSection.assets?]
  rw [contents, List.findSome?_append, hledgers]
  cases m.notes <;> cases m.assets <;> rfl

def later (m : Morsel) : List Section :=
  (m.notes.map fun s => ⟨MorselTag.notes.code, Utf8.encode s⟩).toList
    ++ (m.assets.map fun b => ⟨MorselTag.assets.code, b⟩).toList
    ++ m.ledgers.map MorselSection.ofPackage

theorem sections_eq (m : Morsel) : m.sections = ⟨MorselTag.ledgers.code, m.encodeList⟩ :: m.later := by
  simp [sections, later, MorselSection.ofPackage]

theorem ofSections_later (limits : Limits) (m : Morsel) (names : List String) :
    ∃ last, MorselSection.ofSections limits names .ledgers 0 m.later =
      ((m.notes.map .notes).toList ++ (m.assets.map .assets).toList ++ ·) <$>
        MorselSection.ofSections limits names last 0 (m.ledgers.map MorselSection.ofPackage) := by
  obtain ⟨algorithm, notes, assets, ledgers⟩ := m
  rcases notes with _ | text <;> rcases assets with _ | bytes
  · refine ⟨.ledgers, ?_⟩
    simp [later]
  · refine ⟨.assets, ?_⟩
    simp [later, MorselSection.ofSections_assets]
  · refine ⟨.notes, ?_⟩
    simp [later, MorselSection.ofSections_notes]
  · refine ⟨.assets, ?_⟩
    simp [later, MorselSection.ofSections_notes, MorselSection.ofSections_assets]

structure Within (limits : Limits) (m : Morsel) : Prop where
  ledgers : m.ledgers.length ≤ limits.maxLedgers
  sections : ∀ s ∈ m.sections, s.body.length ≤ limits.maxSectionBytes
  packages : ∀ p ∈ m.ledgers, p.Within limits

instance (limits : Limits) (m : Morsel) : Decidable (m.Within limits) :=
  decidable_of_iff (m.ledgers.length ≤ limits.maxLedgers ∧
      (∀ s ∈ m.sections, s.body.length ≤ limits.maxSectionBytes) ∧ ∀ p ∈ m.ledgers, p.Within limits)
    ⟨fun h => ⟨h.1, h.2.1, h.2.2⟩, fun h => ⟨h.ledgers, h.sections, h.packages⟩⟩

def Sized (m : Morsel) : Prop := ∀ p ∈ m.ledgers, p.Sized

instance (m : Morsel) : Decidable m.Sized := inferInstanceAs (Decidable (∀ p ∈ m.ledgers, p.Sized))

theorem decodeSections_eq_ok (sound : m.Sound) (hvalid : m.validate = .ok ()) (hsized : m.Sized)
    (hwithin : m.Within limits) (hlimits : limits.Sized) :
    decodeSections limits m.algorithm (m.sections.flatMap Section.encode) = .ok m := by
  have hne := ((sound.validate_eq_ok_iff).1 hvalid).1
  have hlist := hwithin.sections ⟨MorselTag.ledgers.code, m.encodeList⟩
    (sections_eq m ▸ List.mem_cons_self)
  have hnames := Decoder.eval_of_reads (reads_decodeList sound hne hwithin.ledgers hlimits
    (Nat.lt_of_le_of_lt hlist hlimits.sectionBytes))
  obtain ⟨last, hlater⟩ := ofSections_later limits m m.names
  rw [MorselSection.ofSections_ledgers rfl fun p hp i =>
    Package.decode_eq_ok (hsized p hp) (hwithin.packages p hp) hlimits i] at hlater
  have hcontents : MorselSection.ofSections limits m.names .ledgers 0 m.later = .ok m.contents :=
    hlater
  rw [decodeSections, Section.split_encode hwithin.sections hlimits.sectionBytes, sections_eq]
  simp only [hnames]
  rw [if_neg (not_not_intro rfl)]
  simp only [bind, Except.bind]
  rw [hcontents]
  simp only [filterMap_contents, findSome?_notes, findSome?_assets]
  rw [if_neg (not_not_intro m.length_names), hvalid]
  rfl

theorem decodeSections_of_fault {e : ValueError}
    (h : (Section.split limits.maxSectionBytes bytes).2 = some e) (algorithm : Algorithm) :
    ∃ e, decodeSections limits algorithm bytes = .error e := by
  rw [decodeSections]
  generalize Section.split limits.maxSectionBytes bytes = found at h
  obtain ⟨_ | ⟨first, rest⟩, fault⟩ := found
  · cases h
    exact ⟨_, rfl⟩
  · cases h
    dsimp only
    split
    · exact ⟨_, rfl⟩
    · apply exists_error_bind
      intro names
      apply exists_error_bind
      intro contents
      exact ⟨_, rfl⟩

theorem decodeSections_error (hsized : m.Sized) (hexceeds : ¬m.Within limits)
    (hlimits : limits.Sized) (sound : m.Sound) (hne : m.ledgers ≠ []) (algorithm : Algorithm) :
    ∃ e, decodeSections limits algorithm (m.sections.flatMap Section.encode) = .error e := by
  by_cases hbodies : ∀ s ∈ m.sections, s.body.length ≤ limits.maxSectionBytes
  · rw [decodeSections, Section.split_encode hbodies hlimits.sectionBytes, sections_eq]
    dsimp only
    split
    · exact ⟨_, rfl⟩
    rcases Nat.lt_or_ge limits.maxLedgers m.ledgers.length with hcount | hcount
    · obtain ⟨e, he⟩ := Decoder.eval_of_refuses (refuses_decodeList hcount)
      rw [he]
      exact ⟨e, rfl⟩
    · have hlist := hbodies ⟨MorselTag.ledgers.code, m.encodeList⟩ (sections_eq m ▸ List.mem_cons_self)
      have hnames := Decoder.eval_of_reads (reads_decodeList sound hne hcount hlimits
        (Nat.lt_of_le_of_lt hlist hlimits.sectionBytes))
      have hrefused : ∃ p ∈ m.ledgers, ∀ i, ∃ e, Package.decode limits i p.encode = .error e := by
        by_contra hpackages
        refine hexceeds ⟨hcount, hbodies, fun p hp => ?_⟩
        by_contra hp'
        exact hpackages ⟨p, hp, Package.decode_error (hsized p hp) hp' hlimits⟩
      obtain ⟨last, hlater⟩ := ofSections_later limits m m.names
      obtain ⟨e, he⟩ : ∃ e, MorselSection.ofSections limits m.names last 0 _ = .error e :=
        MorselSection.ofSections_ledgers_error rfl hrefused last
      rw [he] at hlater
      rw [hnames]
      exact ⟨e, by simp only [bind, Except.bind, hlater]; rfl⟩
  · obtain ⟨e, he⟩ := Section.split_exceeding (by simpa using hbodies) hlimits.sectionBytes
    exact decodeSections_of_fault he algorithm

theorem decodeHeader_header (m : Morsel) : decodeHeader m.header = .ok m.algorithm := by
  rw [header]
  cases m.algorithm <;> rfl

theorem length_header (m : Morsel) : m.header.length = headerLength := rfl

theorem decode_withChecksum_append {header : Bytes} {algorithm : Algorithm}
    (hlength : header.length = headerLength) (halgorithm : decodeHeader header = .ok algorithm)
    (limits : Limits) (bytes : Bytes) :
    decode limits (withChecksum (header ++ bytes)) = decodeSections limits algorithm bytes := by
  have hheader : (withChecksum (header ++ bytes)).take headerLength = header := by
    rw [withChecksum, List.append_assoc, ← hlength, List.take_left]
  have hall : (withChecksum (header ++ bytes)).length = (header ++ bytes).length + trailerLength := by
    rw [withChecksum, List.length_append, Bytes.length_bigEndian]
    rfl
  have hcontent : (withChecksum (header ++ bytes)).take (header ++ bytes).length =
      header ++ bytes := List.take_left
  have hstored : (withChecksum (header ++ bytes)).drop (header ++ bytes).length =
      Bytes.bigEndian 4 (Crc32.checksum (header ++ bytes)).toNat := List.drop_left
  have hbody : (header ++ bytes).drop headerLength = bytes := by
    rw [← hlength, List.drop_left]
  rw [decode, if_neg (by rw [hall, List.length_append, hlength]; omega)]
  rw [hheader, halgorithm, hall, Nat.add_sub_cancel, hcontent, hstored,
    Bytes.toNat_bigEndian (UInt32.toNat_lt _), UInt32.ofNat_toNat]
  simp only [bind, Except.bind]
  rw [if_neg (not_not_intro rfl), hbody]

theorem decode_withChecksum (limits : Limits) (m : Morsel) (bytes : Bytes) :
    decode limits (withChecksum (m.header ++ bytes)) = decodeSections limits m.algorithm bytes :=
  decode_withChecksum_append m.length_header m.decodeHeader_header limits bytes

/-- A morsel put together is written if and only if it has ledgers and its assets come with notes.
What is written is read back as the same morsel if its lengths and counts are within the limits, and
refused otherwise. Row numbers and limits have 64 bits. -/
theorem encode_decode_within (assembled : m.Assembled) (sized : m.Sized) :
    ((∃ bytes, m.encode = .ok bytes) ↔ m.ledgers ≠ [] ∧ (m.assets.isSome → m.notes.isSome)) ∧
    ∀ bytes, m.encode = .ok bytes → ∀ limits : Limits, limits.Sized →
      (m.Within limits → decode limits bytes = .ok m) ∧
      (¬m.Within limits → ∃ e, decode limits bytes = .error e) := by
  have sound := assembled.sound
  constructor
  · rw [← sound.validate_eq_ok_iff]
    simp only [encode_eq_ok_iff, exists_and_left, exists_eq', and_true]
  · intro bytes hbytes limits hlimits
    obtain ⟨hvalid, rfl⟩ := encode_eq_ok_iff.1 hbytes
    have hne := (sound.validate_eq_ok_iff.1 hvalid).1
    rw [decode_withChecksum]
    exact ⟨fun hwithin => decodeSections_eq_ok sound hvalid sized hwithin hlimits,
      fun hexceeds => decodeSections_error sized hexceeds hlimits sound hne m.algorithm⟩

def till : Package where
  info := { LedgerInfo.new .log "till" with
    origin := some "shop"
    notes := some "one day"
    assets := some [0, 255]
    salt := .unsalted (.ofList [1])
    parsing := some .commas }
  paths := [⟨⟨0, 1, .ofList [1], .ofList [(1, ⟨.sentinel, some .sentinel⟩)]⟩, by decide⟩]
  sourceRows := [⟨1, ⟨[⟨.string "3 €", some (.ofDigest .sentinel), by decide⟩,
    ⟨.double 0x8000000000000000, none, by decide⟩]⟩⟩]
  rawText := some ⟨1, [51, 44, 45, 48, 10]⟩
  attestations := [⟨1, ⟨.sentinel, -1, [7]⟩⟩]

def receipt : Morsel := ⟨.sha256, some "paid", none, [till]⟩

theorem encode_decode_receipt :
    ∃ bytes, receipt.encode = .ok bytes ∧ decode .default bytes = .ok receipt ∧
      ∃ e, decode ⟨1, 4096, 1, 1⟩ bytes = .error e := by
  have hadd : (new .sha256).add till = .ok ⟨.sha256, none, none, [till]⟩ := by decide +kernel
  have assembled : receipt.Assembled := .notes (.add (.new .sha256) hadd) "paid"
  obtain ⟨writes, reads⟩ := encode_decode_within assembled (by decide)
  obtain ⟨bytes, hbytes⟩ := writes.2 (by decide)
  have hread := reads bytes hbytes
  exact ⟨bytes, hbytes, (hread .default ⟨by decide, by decide, by decide, by decide⟩).1
    (by decide +kernel), (hread _ ⟨by decide, by decide, by decide, by decide⟩).2
    (by decide +kernel)⟩

end Morsel

end SkipChain
