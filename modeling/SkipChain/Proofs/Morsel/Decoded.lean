import SkipChain.Proofs.Morsel.Accepted
import SkipChain.Proofs.Morsel.RoundTrip
import SkipChain.Proofs.Outcome
/-!
What a morsel that has been read was read from: how its data divides into sections, which of these
were passed over, and what was taken from the others.
-/
namespace SkipChain

variable {limits : Limits} {scope : Scope} {bytes : Bytes} {ss : List Section} {s : Section}

theorem outOfOrder_eq_false_iff {last tag : UInt8} {repeatable : Bool} :
    outOfOrder last tag repeatable = false ↔ last < tag ∨ (last = tag ∧ repeatable = true) := by
  rw [outOfOrder, Bool.or_eq_false_iff, decide_eq_false_iff_not, UInt8.not_lt]
  by_cases h : tag = last
  · subst h
    cases repeatable <;> simp
  · have hne : last ≠ tag := fun heq => h heq.symm
    simp [h, hne, UInt8.le_iff_lt_or_eq]

theorem outOfOrder_trans {a b c : UInt8} {b_repeats c_repeats : Bool}
    (hab : outOfOrder a b b_repeats = false) (hbc : outOfOrder b c c_repeats = false) :
    outOfOrder a c c_repeats = false := by
  rw [outOfOrder_eq_false_iff] at *
  rcases hab with hab | ⟨rfl, -⟩
  · rcases hbc with hbc | ⟨rfl, -⟩
    · exact .inl (UInt8.lt_trans hab hbc)
    · exact .inl hab
  · exact hbc

theorem LedgerTag.Precedes.trans {s t u : LedgerTag} (hst : s.Precedes t) (htu : t.Precedes u) :
    s.Precedes u :=
  outOfOrder_trans hst htu

namespace MorselTag

def Precedes (last t : MorselTag) : Prop := outOfOrder last.code t.code t.repeatable = false

instance (last t : MorselTag) : Decidable (Precedes last t) :=
  inferInstanceAs (Decidable (_ = false))

theorem Precedes.trans {s t u : MorselTag} (hst : s.Precedes t) (htu : t.Precedes u) :
    s.Precedes u :=
  outOfOrder_trans hst htu

end MorselTag

/-- How sections in a row are read: which of them count and under what tags, which contents have
which tag, what tag may come after what, and what a section can hold. -/
structure SectionRules (σ τ : Type) where
  known? : Section → Option τ
  tag : σ → τ
  precedes : τ → τ → Prop
  trans : ∀ {s t u : τ}, precedes s t → precedes t u → precedes s u
  holds : Section → σ → Prop

namespace SectionRules

variable {σ τ : Type} {r : SectionRules σ τ} {last t : τ} {contents : List σ} {c : σ}

/-- After a section with tag `last`, sections are accepted with some contents: each is passed over,
or it is in order and holds the next of these. -/
inductive Accepts (r : SectionRules σ τ) : (last : τ) → List Section → List σ → Prop where
  | nil (last : τ) : Accepts r last [] []
  | skip {last : τ} {s : Section} {ss : List Section} {contents : List σ}
    (htag : r.known? s = none) (hrest : Accepts r last ss contents) :
    Accepts r last (s :: ss) contents
  | read {last : τ} {s : Section} {ss : List Section} {first : σ} {contents : List σ}
    (htag : r.known? s = some (r.tag first)) (hlast : r.precedes last (r.tag first))
    (hbody : r.holds s first) (hrest : Accepts r (r.tag first) ss contents) :
    Accepts r last (s :: ss) (first :: contents)

theorem Accepts.filterMap_known (h : r.Accepts last ss contents) :
    ss.filterMap r.known? = contents.map r.tag := by
  induction h with
  | nil => rfl
  | skip htag _ ih => rw [List.filterMap_cons_none htag, ih]
  | read htag _ _ _ ih => rw [List.filterMap_cons_some htag, ih, List.map_cons]

theorem Accepts.pairwise (h : r.Accepts last ss contents) :
    (last :: contents.map r.tag).Pairwise r.precedes := by
  induction h with
  | nil => exact List.pairwise_singleton _ _
  | skip _ _ ih => exact ih
  | read _ hlast _ _ ih =>
    refine List.pairwise_cons.2 ⟨List.forall_mem_cons.2 ⟨hlast, ?_⟩, ih⟩
    intro t ht
    exact r.trans hlast ((List.pairwise_cons.1 ih).1 t ht)

theorem Accepts.exists_section (h : r.Accepts last ss contents) (hc : c ∈ contents) :
    ∃ s ∈ ss, r.holds s c := by
  induction h with
  | nil => cases hc
  | @skip last s ss contents _ _ ih =>
    obtain ⟨s', hs', hholds⟩ := ih hc
    exact ⟨s', List.mem_cons_of_mem s hs', hholds⟩
  | @read last s ss first contents _ _ hbody _ ih =>
    rcases List.mem_cons.1 hc with rfl | hc
    · exact ⟨s, List.mem_cons_self, hbody⟩
    · obtain ⟨s', hs', hholds⟩ := ih hc
      exact ⟨s', List.mem_cons_of_mem s hs', hholds⟩

theorem Accepts.exists_content (h : r.Accepts last ss contents) (hs : s ∈ ss)
    (htag : r.known? s = some t) : ∃ c, r.tag c = t ∧ r.holds s c := by
  induction h with
  | nil => cases hs
  | skip hunknown _ ih =>
    rcases List.mem_cons.1 hs with rfl | hs
    · cases hunknown.symm.trans htag
    · exact ih hs
  | @read last s' ss first contents hfirst _ hbody _ ih =>
    rcases List.mem_cons.1 hs with rfl | hs
    · exact ⟨first, Option.some.inj (hfirst.symm.trans htag), hbody⟩
    · exact ih hs

end SectionRules

def LedgerTag.later? (s : Section) : Option LedgerTag :=
  (LedgerTag.ofCode? s.tag).filter (· ≠ .identity)

namespace LedgerSection

def rules (limits : Limits) : SectionRules LedgerSection LedgerTag where
  known? := LedgerTag.later?
  tag := tag
  precedes := LedgerTag.Precedes
  trans := LedgerTag.Precedes.trans
  holds s c := ofBody limits c.tag s.body = .ok c

variable {last : LedgerTag} {contents : List LedgerSection}

theorem accepts_of_ofSections (h : ofSections limits scope last ss = .ok contents) :
    (rules limits).Accepts last ss contents := by
  induction ss generalizing last contents with
  | nil =>
    cases h
    exact .nil last
  | cons s ss ih =>
    rw [ofSections] at h
    split at h
    · next htag =>
      have hunknown : LedgerTag.later? s = none := by simp [LedgerTag.later?, htag]
      exact .skip hunknown (ih h)
    · next htag =>
      have hunknown : LedgerTag.later? s = none := by simp [LedgerTag.later?, htag]
      exact .skip hunknown (ih h)
    · next t hidentity htag =>
      obtain ⟨horder, h⟩ := guard_eq_ok.1 h
      simp only [bind_eq_ok, pure_eq_ok] at h
      obtain ⟨first, hbody, later, hlater, rfl⟩ := h
      obtain ⟨rfl, -⟩ := ofBody_spec hbody
      have hknown : LedgerTag.later? s = some first.tag := by
        simpa [LedgerTag.later?, htag] using hidentity
      exact .read hknown (Bool.eq_false_iff.2 horder) hbody (ih hlater)

theorem follow_of_accepts (h : (rules limits).Accepts .identity ss contents) :
    Follow .identity contents := by
  obtain ⟨hfirst, hrest⟩ := List.pairwise_cons.1 h.pairwise
  have hafter : ∀ s ∈ contents, LedgerTag.identity.Precedes s.tag := List.forall_mem_map.1 hfirst
  refine ⟨fun s hs htag => ?_, hafter, List.pairwise_map.1 hrest⟩
  exact absurd (htag ▸ hafter s hs) (by decide)

end LedgerSection

namespace Package

variable {index : Nat} {p : Package}

theorem decode_eq_ok_iff : decode limits index bytes = .ok p ↔
    ∃ ss, Section.split limits.maxSectionBytes bytes = (ss, none) ∧
      ∃ first rest, ss = first :: rest ∧ first.tag = LedgerTag.identity.code ∧
        ∃ identity, LedgerSection.ofBody limits .identity first.body = .ok identity ∧
          ∃ contents,
            LedgerSection.ofSections limits (.place index) .identity rest = .ok contents ∧
            contents.any (·.tag = .salt) ∧
            contents.foldl addSection ((new (.new .table "")).addSection identity) = p := by
  unfold decode
  split
  · next hsplit => simp [hsplit, throw, throwThe, MonadExceptOf.throw]
  · next hsplit => simp [hsplit, throw, throwThe, MonadExceptOf.throw]
  · next first rest fault hsplit =>
    simp only [guard_eq_ok, bind_eq_ok, not_not, hsplit]
    constructor
    · rintro ⟨htag, identity, hidentity, contents, hcontents, h⟩
      cases fault with
      | some e => cases h
      | none =>
        dsimp only at h
        split at h
        · next hsalt =>
          cases h
          exact ⟨_, rfl, first, rest, rfl, htag, identity, hidentity, contents, hcontents, hsalt,
            rfl⟩
        · cases h
    · rintro ⟨ss, hss, first', rest', hcons, htag, identity, hidentity, contents, hcontents, hsalt,
        hp⟩
      cases hss
      cases hcons
      refine ⟨htag, identity, hidentity, contents, hcontents, ?_⟩
      dsimp only
      rw [if_pos hsalt, hp]
      rfl

theorem decode_spec (h : decode limits index bytes = .ok p) :
    ∃ first rest kind name contents,
      Section.split limits.maxSectionBytes bytes = (first :: rest, none) ∧
      first.tag = LedgerTag.identity.code ∧
      LedgerSection.ofBody limits .identity first.body = .ok (.identity kind name) ∧
      (LedgerSection.rules limits).Accepts .identity rest contents ∧
      (∃ s ∈ contents, s.tag = .salt) ∧
      p = contents.foldl addSection ((new (.new .table "")).addSection (.identity kind name)) := by
  obtain ⟨_, hsplit, first, rest, rfl, htag, identity, hidentity, contents, hcontents, hsalt,
    rfl⟩ := decode_eq_ok_iff.1 h
  obtain ⟨hkind, -⟩ := LedgerSection.ofBody_spec hidentity
  cases identity with
  | identity kind name =>
    exact ⟨first, rest, kind, name, contents, hsplit, htag, hidentity,
      LedgerSection.accepts_of_ofSections hcontents, by simpa using hsalt, rfl⟩
  | _ => cases hkind

end Package

namespace MorselSection

def tag : MorselSection → MorselTag
  | notes _ => .notes
  | assets _ => .assets
  | ledger _ => .ledger

def Holds (limits : Limits) (body : Bytes) : MorselSection → Prop
  | notes text => Utf8.encode text = body
  | assets bytes => bytes = body
  | ledger p => ∃ index, Package.decode limits index body = .ok p

def rules (limits : Limits) : SectionRules MorselSection MorselTag where
  known? s := MorselTag.ofCode? s.tag
  tag := tag
  precedes := MorselTag.Precedes
  trans := MorselTag.Precedes.trans
  holds s c := c.Holds limits s.body

variable {names : List String} {index : Nat} {last : MorselTag} {contents : List MorselSection}

theorem decodeLedger_eq_ok {p : Package} (h : decodeLedger limits names index bytes = .ok p) :
    names[index]? = some p.name ∧ Package.decode limits index bytes = .ok p := by
  unfold decodeLedger at h
  split at h
  · cases h
  · next name hname =>
    obtain ⟨q, hq, h⟩ := bind_eq_ok.1 h
    obtain ⟨heq, h⟩ := guard_eq_ok.1 h
    cases h
    exact ⟨hname.trans (congrArg some (not_not.1 heq).symm), hq⟩

theorem encode_of_eval_decodeRestText {text : String}
    (h : LedgerSection.decodeRestText.eval bytes = .ok text) : Utf8.encode text = bytes := by
  unfold Decoder.eval at h
  split at h
  · next s c hread =>
    cases h
    unfold EStateM.run LedgerSection.decodeRestText at hread
    split at hread
    · cases hread
    · next hs =>
      cases hread
      exact Utf8.encode_of_decode hs
  · cases h

theorem accepts_of_ofSections (h : ofSections limits names last index ss = .ok contents) :
    (rules limits).Accepts last ss contents ∧
      (contents.filterMap package?).map Package.name <+: names.drop index := by
  induction ss generalizing last index contents with
  | nil =>
    cases h
    exact ⟨.nil last, List.nil_prefix⟩
  | cons s ss ih =>
    rw [ofSections] at h
    split at h
    · next htag =>
      obtain ⟨hrest, hnames⟩ := ih h
      exact ⟨.skip htag hrest, hnames⟩
    · next tag htag =>
      obtain ⟨horder, h⟩ := guard_eq_ok.1 h
      have hlast : last.Precedes tag := Bool.eq_false_iff.2 horder
      cases tag with
      | ledgers =>
        -- the list of ledgers may not follow anything
        exact absurd hlast (by cases last <;> decide)
      | notes =>
        simp only [bind_eq_ok, pure_eq_ok] at h
        obtain ⟨text, htext, later, hlater, rfl⟩ := h
        obtain ⟨hrest, hnames⟩ := ih hlater
        exact ⟨.read htag hlast (encode_of_eval_decodeRestText htext) hrest, hnames⟩
      | assets =>
        simp only [bind_eq_ok, pure_eq_ok] at h
        obtain ⟨later, hlater, rfl⟩ := h
        obtain ⟨hrest, hnames⟩ := ih hlater
        exact ⟨.read htag hlast rfl hrest, hnames⟩
      | ledger =>
        simp only [bind_eq_ok, pure_eq_ok] at h
        obtain ⟨p, hp, later, hlater, rfl⟩ := h
        obtain ⟨hrest, hnames⟩ := ih hlater
        obtain ⟨hname, hdecode⟩ := decodeLedger_eq_ok hp
        refine ⟨.read htag hlast ⟨index, hdecode⟩ hrest, ?_⟩
        obtain ⟨hindex, hget⟩ := List.getElem?_eq_some_iff.1 hname
        rw [List.drop_eq_getElem_cons hindex, hget]
        exact (List.prefix_cons_inj _).2 hnames

end MorselSection

namespace Morsel

variable {m : Morsel} {algorithm : Algorithm} {data : Bytes}

theorem decodeSections_eq_ok_iff : decodeSections limits algorithm bytes = .ok m ↔
    ∃ ss, Section.split limits.maxSectionBytes bytes = (ss, none) ∧
      ∃ first rest, ss = first :: rest ∧ first.tag = MorselTag.ledgers.code ∧
        ∃ names, (decodeList limits).eval first.body = .ok names ∧
          ∃ contents, MorselSection.ofSections limits names .ledgers 0 rest = .ok contents ∧
            names.length = (contents.filterMap MorselSection.package?).length ∧
            ⟨algorithm, contents.findSome? MorselSection.notes?,
              contents.findSome? MorselSection.assets?,
              contents.filterMap MorselSection.package?⟩ = m ∧ m.validate = .ok () := by
  unfold decodeSections
  split
  · next hsplit => simp [hsplit, throw, throwThe, MonadExceptOf.throw]
  · next hsplit => simp [hsplit, throw, throwThe, MonadExceptOf.throw]
  · next first rest fault hsplit =>
    simp only [guard_eq_ok, bind_eq_ok, not_not, hsplit]
    constructor
    · rintro ⟨htag, names, hnames, contents, hcontents, h⟩
      cases fault with
      | some e => cases h
      | none =>
        obtain ⟨hcount, h⟩ := guard_eq_ok.1 h
        obtain ⟨⟨⟩, hvalid, h⟩ := bind_eq_ok.1 h
        cases h
        exact ⟨_, rfl, first, rest, rfl, htag, names, hnames, contents, hcontents,
          not_not.1 hcount, rfl, hvalid⟩
    · rintro ⟨ss, hss, first', rest', hcons, htag, names, hnames, contents, hcontents, hcount,
        rfl, hvalid⟩
      cases hss
      cases hcons
      exact ⟨htag, names, hnames, contents, hcontents,
        guard_eq_ok.2 ⟨not_not.2 hcount, bind_eq_ok.2 ⟨⟨⟩, hvalid, rfl⟩⟩⟩

theorem decodeSections_spec (h : decodeSections limits algorithm bytes = .ok m) :
    ∃ first rest contents,
      Section.split limits.maxSectionBytes bytes = (first :: rest, none) ∧
      first.tag = MorselTag.ledgers.code ∧
      (decodeList limits).eval first.body = .ok m.names ∧
      (MorselSection.rules limits).Accepts .ledgers rest contents ∧
      m = ⟨algorithm, contents.findSome? MorselSection.notes?,
        contents.findSome? MorselSection.assets?, contents.filterMap MorselSection.package?⟩ ∧
      m.validate = .ok () := by
  obtain ⟨_, hsplit, first, rest, rfl, htag, names, hnames, contents, hcontents, hcount, rfl,
    hvalid⟩ := decodeSections_eq_ok_iff.1 h
  obtain ⟨haccepts, hprefix⟩ := MorselSection.accepts_of_ofSections hcontents
  have hlisted : (contents.filterMap MorselSection.package?).map Package.name = names := by
    apply hprefix.eq_of_length
    rw [List.length_map]
    exact hcount.symm
  exact ⟨first, rest, contents, hsplit, htag, hnames.trans (congrArg _ hlisted.symm), haccepts, rfl,
    hvalid⟩

def middle (data : Bytes) : Bytes :=
  (data.take (data.length - trailerLength)).drop headerLength

theorem decode_eq_ok_iff :
    decode limits data = .ok m ↔ headerLength + trailerLength ≤ data.length ∧
      decodeHeader (data.take headerLength) = .ok m.algorithm ∧
      UInt32.ofNat (Bytes.toNat (data.drop (data.length - trailerLength))) =
        Crc32.checksum (data.take (data.length - trailerLength)) ∧
      decodeSections limits m.algorithm (middle data) = .ok m := by
  unfold decode
  simp only [guard_eq_ok, bind_eq_ok, not_not, Nat.not_lt]
  constructor
  · rintro ⟨hlength, algorithm, halgorithm, hchecksum, h⟩
    obtain ⟨first, rest, contents, -, -, -, -, hm, -⟩ := decodeSections_spec h
    obtain rfl : m.algorithm = algorithm := by rw [hm]
    exact ⟨hlength, halgorithm, hchecksum, h⟩
  · rintro ⟨hlength, halgorithm, hchecksum, h⟩
    exact ⟨hlength, m.algorithm, halgorithm, hchecksum, h⟩

theorem decode_spec (h : decode limits data = .ok m) :
    headerLength + trailerLength ≤ data.length ∧
      decodeSections limits m.algorithm (middle data) = .ok m :=
  ⟨(decode_eq_ok_iff.1 h).1, (decode_eq_ok_iff.1 h).2.2.2⟩

end Morsel

end SkipChain
