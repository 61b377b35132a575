import Mathlib.Data.List.Induction
import SkipChain.Proofs.Morsel.Decoded
/-!
Reading a morsel and writing it again normalizes its bytes: whatever is accepted is written in no
more bytes, within the same limits, and read again as the same morsel.
-/
namespace SkipChain

open Decoder (Yields)

theorem flatMap_filter_eq {α κ : Type} [DecidableEq κ] {key : α → κ} {before : κ → κ → Prop}
    {keys : List κ} {as : List α} (hkeys : keys.Pairwise fun k l => k ≠ l ∧ ¬before l k)
    (hmem : ∀ a ∈ as, key a ∈ keys)
    (hordered : as.Pairwise fun a b => before (key a) (key b)) :
    (keys.flatMap fun k => as.filter (key · = k)) = as := by
  induction as with
  | nil => simp
  | cons a as ih =>
    obtain ⟨hfirst, hrest⟩ := List.pairwise_cons.1 hordered
    specialize ih (fun b hb => hmem b (List.mem_cons_of_mem a hb)) hrest
    obtain ⟨front, back, rfl⟩ := List.append_of_mem (hmem a List.mem_cons_self)
    obtain ⟨-, hback, hcross⟩ := List.pairwise_append.1 hkeys
    have hfront (k : κ) (hk : k ∈ front) : as.filter (key · = k) = [] := by
      apply List.filter_eq_nil_iff.2
      rintro b hb hkey
      obtain rfl : key b = k := of_decide_eq_true hkey
      exact (hcross _ hk _ List.mem_cons_self).2 (hfirst b hb)
    have hfront' (k : κ) (hk : k ∈ front) : (a :: as).filter (key · = k) = [] := by
      have hne : key a ≠ k := (hcross _ hk _ List.mem_cons_self).1.symm
      rw [List.filter_cons_of_neg (by simpa using hne), hfront k hk]
    have hback' (k : κ) (hk : k ∈ back) :
        (a :: as).filter (key · = k) = as.filter (key · = k) := by
      have hne : key a ≠ k := ((List.pairwise_cons.1 hback).1 k hk).1
      rw [List.filter_cons_of_neg (by simpa using hne)]
    rw [List.flatMap_append, List.flatMap_eq_nil_iff.2 hfront, List.flatMap_cons] at ih
    rw [List.flatMap_append, List.flatMap_eq_nil_iff.2 hfront', List.flatMap_cons,
      List.filter_cons_of_pos (by simp), List.flatMap_congr hback']
    simpa using ih

theorem filter_single {α κ : Type} [DecidableEq κ] {key : α → κ} {before : κ → κ → Prop}
    {as : List α} {k : κ} (hk : ¬before k k)
    (hordered : as.Pairwise fun a b => before (key a) (key b)) :
    as.filter (key · = k) = [] ∨ ∃ a, as.filter (key · = k) = [a] := by
  have hpart := hordered.filter (key · = k)
  have hkey : ∀ a ∈ as.filter (key · = k), key a = k :=
    fun a ha => of_decide_eq_true (List.mem_filter.1 ha).2
  generalize as.filter (key · = k) = part at hpart hkey
  match part with
  | [] => exact .inl rfl
  | [a] => exact .inr ⟨a, rfl⟩
  | a :: b :: rest =>
    have hab := (List.pairwise_cons.1 hpart).1 b List.mem_cons_self
    rw [hkey a List.mem_cons_self, hkey b (List.mem_cons_of_mem a List.mem_cons_self)] at hab
    exact absurd hab hk

variable {limits : Limits} {bytes : Bytes} {ss : List Section}

theorem LedgerTag.precedes_self_iff (t : LedgerTag) : t.Precedes t ↔ t.repeatable = true := by
  cases t <;> decide

namespace Package

variable {p : Package} {contents : List LedgerSection} {t : LedgerTag}

theorem segment_addSection (p : Package) (s : LedgerSection) (t : LedgerTag) :
    (p.addSection s).segment t =
      if s.tag = t then (if t.repeatable then p.segment t else []) ++ [s] else p.segment t := by
  cases s <;> cases t <;> simp [addSection, segment, LedgerSection.tag, LedgerTag.repeatable]

theorem segment_foldl_repeatable (ht : t.repeatable = true) :
    (contents.foldl addSection p).segment t = p.segment t ++ contents.filter (·.tag = t) := by
  induction contents generalizing p with
  | nil => simp
  | cons s contents ih =>
    rw [List.foldl_cons, ih, segment_addSection]
    by_cases hs : s.tag = t <;> simp [hs, ht]

theorem segment_foldl_single (ht : ¬t.repeatable = true) :
    (contents.foldl addSection p).segment t =
      (contents.filter (·.tag = t)).getLast?.elim (p.segment t) fun s => [s] := by
  induction contents using List.reverseRecOn with
  | nil => rfl
  | append_singleton contents s ih =>
    rw [List.foldl_append, List.foldl_cons, List.foldl_nil, segment_addSection, List.filter_append]
    by_cases hs : s.tag = t <;> simp [hs, ht, ih]

theorem sections_foldl (follow : LedgerSection.Follow .identity contents)
    (hsalt : ∃ s ∈ contents, s.tag = .salt) (kind : LedgerKind) (name : String) :
    (contents.foldl addSection
      ((new (.new .table "")).addSection (.identity kind name))).sections =
        .identity kind name :: contents := by
  generalize hp : contents.foldl addSection
    ((new (.new .table "")).addSection (.identity kind name)) = p
  have hidentity : p.segment .identity = [.identity kind name] := by
    have hnone : contents.filter (·.tag = .identity) = [] :=
      List.filter_eq_nil_iff.2 fun s hs htag => follow.no_identity s hs (of_decide_eq_true htag)
    rw [← hp, segment_foldl_single (by decide), hnone]
    rfl
  have hsegment (t : LedgerTag) (ht : t ∈ LedgerTag.all.tail) :
      p.segment t = contents.filter (·.tag = t) := by
    by_cases hrepeats : t.repeatable = true
    · rw [← hp, segment_foldl_repeatable hrepeats]
      cases t <;> first | rfl | cases hrepeats
    · rw [← hp, segment_foldl_single hrepeats]
      rcases filter_single (mt t.precedes_self_iff.1 hrepeats) follow.ordered with
        hnone | ⟨s, hone⟩
      · rw [hnone]
        cases t with
        | identity => exact absurd ht (by decide)
        | salt =>
          obtain ⟨s, hs, htag⟩ := hsalt
          exact absurd (decide_eq_true htag) (List.filter_eq_nil_iff.1 hnone s hs)
        | _ => rfl
      · rw [hone]
        rfl
  have hparts : (LedgerTag.all.tail.flatMap fun t => contents.filter (·.tag = t)) = contents := by
    apply flatMap_filter_eq (by decide) _ follow.ordered
    intro s hs
    have hlater := follow.no_identity s hs
    cases htag : s.tag <;> first | exact absurd htag hlater | decide
  calc p.sections = p.segment .identity ++ LedgerTag.all.tail.flatMap p.segment :=
        p.sections_eq_flatMap
    _ = [.identity kind name] ++ contents := by
        rw [hidentity, List.flatMap_congr hsegment, hparts]

end Package

theorem Section.length_encode_le {s s' : Section} (h : s.body.length ≤ s'.body.length) :
    s.encode.length ≤ s'.encode.length :=
  Nat.succ_le_succ (Wire.length_block_le h)

theorem SectionRules.Accepts.length_encode_le {σ τ : Type} {r : SectionRules σ τ} {last : τ}
    {contents : List σ} (h : r.Accepts last ss contents) (toSection : σ → Section)
    (hbody : ∀ s c, r.holds s c → (toSection c).body.length ≤ s.body.length) :
    (contents.flatMap fun c => (toSection c).encode).length ≤
      (ss.flatMap Section.encode).length := by
  induction h with
  | nil => simp
  | skip _ _ ih =>
    rw [List.flatMap_cons, List.length_append]
    omega
  | read _ _ hfirst _ ih =>
    rw [List.flatMap_cons, List.flatMap_cons, List.length_append, List.length_append]
    exact Nat.add_le_add (Section.length_encode_le (hbody _ _ hfirst)) ih

namespace Package

variable {p : Package} {index : Nat}

theorem Sized.of_sections (h : ∀ s ∈ p.sections, s.Sized) : p.Sized where
  paths x hx := h (.path x) (mem_sections.2 (List.mem_map_of_mem hx))
  sourceRows r hr := h (.sourceRow r) (mem_sections.2 (List.mem_map_of_mem hr))
  rawText t ht := by
    apply h (.rawText t) (mem_sections.2 _)
    simpa [segment, LedgerSection.tag] using ht
  attestations a ha := h (.attestation a) (mem_sections.2 (List.mem_map_of_mem ha))

theorem within_of_decode (h : decode limits index bytes = .ok p) :
    p.Sized ∧ p.Within limits ∧ p.encode.length ≤ bytes.length := by
  obtain ⟨first, rest, kind, name, contents, hsplit, -, hidentity, haccepts, hsalt, rfl⟩ :=
    decode_spec h
  have hsections := sections_foldl (LedgerSection.follow_of_accepts haccepts) hsalt kind name
  obtain ⟨hbodies, hlength⟩ := Section.split_eq hsplit
  obtain ⟨hfirst, hrest⟩ := List.forall_mem_cons.1 hbodies
  obtain ⟨-, hsized, hfits, hshort⟩ := LedgerSection.ofBody_spec hidentity
  have hlater := haccepts.length_encode_le LedgerSection.toSection
    fun _ _ hbody => (LedgerSection.ofBody_spec hbody).2.2.2
  have hall : ∀ s ∈ LedgerSection.identity kind name :: contents,
      s.Sized ∧ s.Fits limits ∧ s.body.length ≤ limits.maxSectionBytes := by
    refine List.forall_mem_cons.2 ⟨⟨hsized, hfits, Nat.le_trans hshort hfirst⟩, fun s hs => ?_⟩
    obtain ⟨section', hmem, hbody⟩ := haccepts.exists_section hs
    obtain ⟨-, hsized, hfits, hshort⟩ := LedgerSection.ofBody_spec hbody
    exact ⟨hsized, hfits, Nat.le_trans hshort (hrest section' hmem)⟩
  rw [← hsections] at hall
  refine ⟨.of_sections fun s hs => (hall s hs).1, within_iff.2 fun s hs => (hall s hs).2, ?_⟩
  rw [encode, hsections, List.flatMap_cons, List.length_append]
  rw [List.flatMap_cons, List.length_append] at hlength
  have hidentified := Section.length_encode_le (s := (LedgerSection.identity kind name).toSection)
    hshort
  omega

end Package

namespace MorselSection

variable {contents : List MorselSection}

def toSection : MorselSection → Section
  | notes text => ⟨MorselTag.notes.code, Utf8.encode text⟩
  | assets bytes => ⟨MorselTag.assets.code, bytes⟩
  | ledger p => ofPackage p

theorem Holds.length_body_le {s : MorselSection} (h : s.Holds limits bytes) :
    s.toSection.body.length ≤ bytes.length := by
  cases s with
  | notes text => exact Nat.le_of_eq (congrArg List.length h)
  | assets assets => exact Nat.le_of_eq (congrArg List.length h)
  | ledger p =>
    obtain ⟨index, hp⟩ := h
    exact (Package.within_of_decode hp).2.2

theorem filter_tag {α : Type} (make : α → MorselSection) (get? : MorselSection → Option α)
    {t : MorselTag} (hget : ∀ s : MorselSection, if s.tag = t then (get? s).map make = some s
      else get? s = none) (contents : List MorselSection) :
    contents.filter (·.tag = t) = (contents.filterMap get?).map make := by
  induction contents with
  | nil => rfl
  | cons s contents ih =>
    have hs := hget s
    split at hs
    · next htag =>
      obtain ⟨a, ha, hmake⟩ := Option.map_eq_some_iff.1 hs
      rw [List.filter_cons_of_pos (by simpa using htag), ih, List.filterMap_cons_some ha,
        List.map_cons, hmake]
    · next htag =>
      rw [List.filter_cons_of_neg (by simpa using htag), ih, List.filterMap_cons_none hs]

theorem filter_tag_single {α : Type} (make : α → MorselSection) (get? : MorselSection → Option α)
    {t : MorselTag} (hget : ∀ s : MorselSection, if s.tag = t then (get? s).map make = some s
      else get? s = none) (ht : ¬t.Precedes t)
    (hordered : contents.Pairwise fun s s' => s.tag.Precedes s'.tag) :
    contents.filter (·.tag = t) = ((contents.findSome? get?).map make).toList := by
  have hpart := filter_tag make get? hget contents
  rw [← List.head?_filterMap]
  rcases filter_single ht hordered with hnone | ⟨s, hone⟩
  · rw [hnone, eq_comm, List.map_eq_nil_iff] at hpart
    rw [hnone, hpart]
    rfl
  · rw [hone, eq_comm, List.map_eq_singleton_iff] at hpart
    obtain ⟨a, ha, rfl⟩ := hpart
    rw [hone, ha]
    rfl

end MorselSection

namespace Morsel

variable {m : Morsel} {data : Bytes} {algorithm : Algorithm}

theorem contents_eq {contents : List MorselSection}
    (hordered : (.ledgers :: contents.map MorselSection.tag).Pairwise MorselTag.Precedes)
    (algorithm : Algorithm) :
    (⟨algorithm, contents.findSome? MorselSection.notes?,
      contents.findSome? MorselSection.assets?,
      contents.filterMap MorselSection.package?⟩ : Morsel).contents = contents := by
  have hrest := List.pairwise_map.1 (List.pairwise_cons.1 hordered).2
  have hnotes := MorselSection.filter_tag_single .notes MorselSection.notes? (t := .notes)
    (by intro s; cases s <;> rfl) (by decide) hrest
  have hassets := MorselSection.filter_tag_single .assets MorselSection.assets? (t := .assets)
    (by intro s; cases s <;> rfl) (by decide) hrest
  have hledgers := MorselSection.filter_tag .ledger MorselSection.package? (t := .ledger)
    (by intro s; cases s <;> rfl) contents
  have hparts : (([.notes, .assets, .ledger] : List MorselTag).flatMap fun t =>
      contents.filter (·.tag = t)) = contents := by
    apply flatMap_filter_eq (by decide) _ hrest
    intro s hs
    cases s <;> simp [MorselSection.tag]
  rw [Morsel.contents, ← hnotes, ← hassets, ← hledgers]
  simpa using hparts

theorem later_eq (m : Morsel) : m.later = m.contents.map MorselSection.toSection := by
  obtain ⟨algorithm, notes, assets, ledgers⟩ := m
  cases notes <;> cases assets <;>
    simp [later, contents, MorselSection.toSection, List.map_map, Function.comp_def]

theorem yields_decodeNames (n : Nat) (before : List String) : Yields (decodeNames n before)
    fun k names => names.length = n ∧ (names.flatMap Wire.text).length ≤ k := by
  induction n generalizing before with
  | zero => exact .pure ⟨rfl, Nat.le_refl 0⟩
  | succ n ih =>
    apply Decoder.yields_text.lift.bind
    rintro k name ⟨-, hk⟩
    apply Yields.guard
    intro
    apply Yields.guard
    intro
    apply (ih (name :: before)).bind
    rintro l names ⟨hlength, hl⟩
    apply Yields.pure
    refine ⟨by rw [List.length_cons, hlength], ?_⟩
    rw [List.flatMap_cons, List.length_append]
    omega

theorem yields_decodeList (limits : Limits) : Yields (decodeList limits) fun k names =>
    names.length ≤ limits.maxLedgers ∧
      (Wire.varint names.length).length + (names.flatMap Wire.text).length ≤ k := by
  apply Decoder.yields_varint.lift.bind
  rintro k n ⟨-, hk⟩
  apply Yields.guard
  intro
  apply Yields.guard
  intro hcount
  apply (yields_decodeNames n []).bind
  rintro l names ⟨rfl, hl⟩
  apply Decoder.yields_remaining.bind
  rintro _ extra rfl
  apply Yields.guard
  intro
  exact .pure ⟨Nat.not_lt.1 hcount, by omega⟩

theorem validateLedgers_spec {before : List String} {ps : List Package}
    (h : validateLedgers before ps = .ok ()) :
    (∀ p ∈ ps, p.validate = .ok ()) ∧ (ps.map Package.name).Nodup ∧
      ∀ p ∈ ps, p.name ∉ before := by
  induction ps generalizing before with
  | nil => simp
  | cons p ps ih =>
    obtain ⟨⟨⟩, hp, h⟩ := bind_eq_ok.1 h
    obtain ⟨hname, h⟩ := guard_eq_ok.1 h
    obtain ⟨hvalid, hdistinct, hfresh⟩ := ih h
    refine ⟨List.forall_mem_cons.2 ⟨hp, hvalid⟩, List.nodup_cons.2 ⟨?_, hdistinct⟩,
      List.forall_mem_cons.2 ⟨hname, fun q hq => (List.not_mem_of_not_mem_cons (hfresh q hq))⟩⟩
    intro hmem
    obtain ⟨q, hq, heq⟩ := List.mem_map.1 hmem
    exact hfresh q hq (heq ▸ List.mem_cons_self)

theorem sound_of_validate (h : m.validate = .ok ()) : m.Sound := by
  unfold validate at h
  obtain ⟨-, h⟩ := guard_eq_ok.1 h
  obtain ⟨-, h⟩ := guard_eq_ok.1 h
  obtain ⟨hvalid, hdistinct, -⟩ := validateLedgers_spec h
  exact ⟨hvalid, hdistinct⟩

theorem within_of_decodeSections (h : decodeSections limits algorithm bytes = .ok m) :
    m.Sized ∧ m.Within limits ∧ (m.sections.flatMap Section.encode).length ≤ bytes.length := by
  obtain ⟨first, rest, contents, hsplit, -, hnames, haccepts, hm, -⟩ := decodeSections_spec h
  have hcontents : m.contents = contents := by
    rw [hm]
    exact contents_eq haccepts.pairwise algorithm
  have hsections : m.sections =
      ⟨MorselTag.ledgers.code, m.encodeList⟩ :: contents.map MorselSection.toSection := by
    rw [sections_eq, later_eq, hcontents]
  obtain ⟨hbodies, hlength⟩ := Section.split_eq hsplit
  obtain ⟨hfirst, hrest⟩ := List.forall_mem_cons.1 hbodies
  obtain ⟨n, hn, hcount, hlist⟩ := (yields_decodeList limits).of_eval hnames
  have hbody : m.encodeList.length ≤ first.body.length := by
    rw [encodeList, List.length_append, ← length_names]
    omega
  have hlater (c : MorselSection) (hc : c ∈ contents) :
      c.toSection.body.length ≤ limits.maxSectionBytes := by
    obtain ⟨s, hs, hholds⟩ := haccepts.exists_section hc
    exact Nat.le_trans hholds.length_body_le (hrest s hs)
  have hpackages (p : Package) (hp : p ∈ m.ledgers) : p.Sized ∧ p.Within limits := by
    have hmem : .ledger p ∈ m.contents := List.mem_append_right _ (List.mem_map_of_mem hp)
    obtain ⟨s, -, index, hdecode⟩ := haccepts.exists_section (hcontents ▸ hmem)
    obtain ⟨hsized, hwithin, -⟩ := Package.within_of_decode hdecode
    exact ⟨hsized, hwithin⟩
  refine ⟨fun p hp => (hpackages p hp).1, ⟨?_, ?_, fun p hp => (hpackages p hp).2⟩, ?_⟩
  · rwa [← length_names]
  · rw [hsections]
    exact List.forall_mem_cons.2 ⟨Nat.le_trans hbody hfirst, List.forall_mem_map.2 hlater⟩
  · have hlisted := Section.length_encode_le (s := ⟨MorselTag.ledgers.code, m.encodeList⟩) hbody
    have hshort := haccepts.length_encode_le MorselSection.toSection
      fun _ _ hholds => hholds.length_body_le
    rw [List.flatMap_cons, List.length_append] at hlength
    rw [hsections, List.flatMap_cons, List.length_append, List.flatMap_map]
    omega

/-- Whatever is read as a morsel is normalized by writing the morsel: it passes validation and is
within the limits, and it is written in no more bytes, from which the same limits read it again.
Limits have 64 bits. -/
theorem decode_normalizes (hlimits : limits.Sized) (h : decode limits data = .ok m) :
    m.validate = .ok () ∧ m.Within limits ∧
      ∃ written, m.encode = .ok written ∧ written.length ≤ data.length ∧
        decode limits written = .ok m := by
  obtain ⟨hlength, h⟩ := decode_spec h
  obtain ⟨-, -, -, -, -, -, -, -, hvalid⟩ := decodeSections_spec h
  obtain ⟨hsized, hwithin, hshort⟩ := within_of_decodeSections h
  refine ⟨hvalid, hwithin, _, encode_eq_ok_iff.2 ⟨hvalid, rfl⟩, ?_, ?_⟩
  · rw [middle, List.length_drop, List.length_take] at hshort
    rw [withChecksum, List.length_append, List.length_append, Bytes.length_bigEndian, length_header]
    simp only [headerLength, trailerLength] at hlength hshort ⊢
    omega
  · rw [decode_withChecksum]
    exact decodeSections_eq_ok (sound_of_validate hvalid) hvalid hsized hwithin hlimits

def roundabout : Bytes :=
  [83, 75, 76, 77, 0, 1, 1, 0, 1, 131, 0, 1, 1, 97, 127, 1, 7, 16, 15, 1, 3, 1, 1, 97, 32, 1, 0, 5,
    5, 1, 2, 3, 129, 0, 93, 124, 48, 157]

theorem decode_normalizes_roundabout :
    ∃ m, decode .default roundabout = .ok m ∧ m.Within .default ∧
      ∃ written, m.encode = .ok written ∧ written.length ≤ roundabout.length ∧
        written ≠ roundabout ∧ decode .default written = .ok m := by
  have h : decode .default roundabout = .ok ⟨.sha256, none, none,
      [.new { LedgerInfo.new .table "a" with salt := .unsalted (.ofList [1, 3]) }]⟩ := by
    decide +kernel
  obtain ⟨-, hwithin, written, hwritten, hlength, hread⟩ :=
    decode_normalizes ⟨by decide, by decide, by decide, by decide⟩ h
  refine ⟨_, h, hwithin, written, hwritten, hlength, ?_, hread⟩
  rintro rfl
  exact absurd hwritten (by decide +kernel)

end Morsel

end SkipChain
