import SkipChain.Morsel.Decode
import SkipChain.Proofs.Morsel.Section
/-!
The part of a morsel for one ledger is read back from its encoding if it is within the limits, and
refused otherwise.
-/
namespace SkipChain

variable {limits : Limits} {scope : Scope}

theorem exists_error_bind {ε α β : Type} {x : Except ε α} {f : α → Except ε β}
    (h : ∀ a, ∃ e, f a = .error e) : ∃ e, (x >>= f) = .error e := by
  cases x with
  | error e => exact ⟨e, rfl⟩
  | ok a => exact h a

namespace LedgerTag

@[simp] theorem ofCode?_code (t : LedgerTag) : ofCode? t.code = some t := by
  cases t <;> rfl

def Precedes (last t : LedgerTag) : Prop := outOfOrder last.code t.code t.repeatable = false

instance (last t : LedgerTag) : Decidable (Precedes last t) :=
  inferInstanceAs (Decidable (_ = false))

end LedgerTag

namespace LedgerSection

variable {s : LedgerSection} {contents : List LedgerSection} {last : LedgerTag}

theorem ofSections_cons (hs : s.tag ≠ .identity) (hlast : last.Precedes s.tag)
    (rest : List Section) :
    ofSections limits scope last (s.toSection :: rest) = (do
      let first ← ofBody limits s.tag s.body
      return first :: (← ofSections limits scope s.tag rest)) := by
  have horder : outOfOrder last.code s.tag.code s.tag.repeatable = false := hlast
  rw [ofSections]
  simp only [toSection, LedgerTag.ofCode?_code]
  rw [horder, if_neg Bool.false_ne_true]

/-- The sections that may follow the identity of a ledger: none of them is a second identity, and
each may stand after every one before it. -/
structure Follow (last : LedgerTag) (contents : List LedgerSection) : Prop where
  no_identity : ∀ s ∈ contents, s.tag ≠ .identity
  after : ∀ s ∈ contents, last.Precedes s.tag
  ordered : contents.Pairwise fun s t => s.tag.Precedes t.tag

theorem Follow.tail (h : Follow last (s :: contents)) : Follow s.tag contents where
  no_identity t ht := h.no_identity t (List.mem_cons_of_mem s ht)
  after := (List.pairwise_cons.1 h.ordered).1
  ordered := (List.pairwise_cons.1 h.ordered).2

theorem ofSections_eq_ok (follow : Follow last contents) (hlimits : limits.Sized)
    (h : ∀ s ∈ contents, s.Sized ∧ s.Fits limits ∧ s.body.length ≤ limits.maxSectionBytes) :
    ofSections limits scope last (contents.map toSection) = .ok contents := by
  induction contents generalizing last with
  | nil => rfl
  | cons s contents ih =>
    obtain ⟨hsized, hfits, hbody⟩ := h s List.mem_cons_self
    rw [List.map_cons, ofSections_cons (follow.no_identity s List.mem_cons_self)
      (follow.after s List.mem_cons_self), ofBody_eq_ok hsized hfits hlimits hbody,
      ih follow.tail fun t ht => h t (List.mem_cons_of_mem s ht)]
    rfl

theorem ofSections_error (follow : Follow last contents) (hlimits : limits.Sized)
    (hsized : ∀ s ∈ contents, s.Sized) (h : ∃ s ∈ contents, ¬s.Fits limits) :
    ∃ e, ofSections limits scope last (contents.map toSection) = .error e := by
  induction contents generalizing last with
  | nil => simp at h
  | cons s contents ih =>
    rw [List.map_cons, ofSections_cons (follow.no_identity s List.mem_cons_self)
      (follow.after s List.mem_cons_self)]
    by_cases hfits : s.Fits limits
    · obtain ⟨t, ht, hexceeds⟩ := h
      have hrest : ∃ t ∈ contents, ¬t.Fits limits := by
        rcases List.mem_cons.1 ht with rfl | ht
        · exact absurd hfits hexceeds
        · exact ⟨t, ht, hexceeds⟩
      obtain ⟨e, he⟩ := ih follow.tail (fun t ht => hsized t (List.mem_cons_of_mem s ht)) hrest
      apply exists_error_bind
      intro first
      rw [he]
      exact ⟨e, rfl⟩
    · obtain ⟨e, he⟩ := ofBody_error (hsized s List.mem_cons_self) hfits hlimits
      rw [he]
      exact ⟨e, rfl⟩

end LedgerSection

namespace Package

def segment (p : Package) : LedgerTag → List LedgerSection
  | .identity => [.identity p.info.kind p.info.name]
  | .origin => (p.info.origin.map .origin).toList
  | .notes => (p.info.notes.map .notes).toList
  | .assets => (p.info.assets.map .assets).toList
  | .salt => [.salt p.info.salt]
  | .timechain => (p.info.timechain.map .timechain).toList
  | .parsing => (p.info.parsing.map .parsing).toList
  | .path => p.paths.map .path
  | .sourceRow => p.sourceRows.map .sourceRow
  | .rawText => (p.rawText.map .rawText).toList
  | .attestation => p.attestations.map .attestation

theorem sections_eq_flatMap (p : Package) : p.sections = LedgerTag.all.flatMap p.segment := by
  simp [sections, segment, LedgerTag.all]

theorem tag_of_mem_segment {p : Package} {t : LedgerTag} {s : LedgerSection}
    (h : s ∈ p.segment t) : s.tag = t := by
  cases t <;> simp [segment] at h <;> grind [LedgerSection.tag]

theorem pairwise_segment (p : Package) (t : LedgerTag) :
    (p.segment t).Pairwise fun s s' => s.tag.Precedes s'.tag := by
  have hoptional {α : Type} (f : α → LedgerSection) (o : Option α) :
      (o.map f).toList.Pairwise fun s s' => s.tag.Precedes s'.tag := by
    cases o <;> simp
  cases t with
  | identity | salt => exact List.pairwise_singleton _ _
  | origin | notes | assets | timechain | parsing | rawText => exact hoptional _ _
  | path | sourceRow | attestation =>
    apply List.pairwise_of_forall_mem_list
    intro s hs s' hs'
    rw [tag_of_mem_segment hs, tag_of_mem_segment hs']
    decide

def contents (p : Package) : List LedgerSection := LedgerTag.all.tail.flatMap p.segment

theorem sections_eq_cons (p : Package) :
    p.sections = .identity p.info.kind p.info.name :: p.contents :=
  p.sections_eq_flatMap

theorem mem_sections {p : Package} {s : LedgerSection} : s ∈ p.sections ↔ s ∈ p.segment s.tag := by
  rw [sections_eq_flatMap, List.mem_flatMap]
  constructor
  · rintro ⟨t, -, hs⟩
    rwa [tag_of_mem_segment hs]
  · intro hs
    exact ⟨s.tag, by cases s.tag <;> decide, hs⟩

theorem contents_follow (p : Package) : LedgerSection.Follow .identity p.contents where
  no_identity s hs := by
    obtain ⟨t, ht, hs⟩ := List.mem_flatMap.1 hs
    rw [tag_of_mem_segment hs]
    rintro rfl
    exact absurd ht (by decide)
  after s hs := by
    obtain ⟨t, ht, hs⟩ := List.mem_flatMap.1 hs
    rw [tag_of_mem_segment hs]
    exact (by decide : ∀ t ∈ LedgerTag.all.tail, LedgerTag.identity.Precedes t) t ht
  ordered := by
    apply List.pairwise_flatMap.2
    refine ⟨fun t _ => pairwise_segment p t, ?_⟩
    apply (by decide : LedgerTag.all.tail.Pairwise LedgerTag.Precedes).imp
    intro t t' h s hs s' hs'
    rwa [tag_of_mem_segment hs, tag_of_mem_segment hs']

section Rebuild

variable {α : Type} (q : Package)

theorem foldl_optional (f : α → LedgerSection) (o : Option α) :
    (o.map f).toList.foldl addSection q = o.elim q fun a => q.addSection (f a) := by
  cases o <;> rfl

theorem foldl_paths (ps : List Path) :
    (ps.map .path).foldl addSection q = { q with paths := q.paths ++ ps } := by
  induction ps generalizing q with
  | nil => simp
  | cons p ps ih => simp [ih, addSection]

theorem foldl_sourceRows (rs : List SourceRow) :
    (rs.map .sourceRow).foldl addSection q = { q with sourceRows := q.sourceRows ++ rs } := by
  induction rs generalizing q with
  | nil => simp
  | cons r rs ih => simp [ih, addSection]

theorem foldl_attestations (as : List RowAttestation) :
    (as.map .attestation).foldl addSection q = { q with attestations := q.attestations ++ as } := by
  induction as generalizing q with
  | nil => simp
  | cons a as ih => simp [ih, addSection]

end Rebuild

theorem foldl_contents (p : Package) :
    p.contents.foldl addSection
      ((new (.new .table "")).addSection (.identity p.info.kind p.info.name)) = p := by
  obtain ⟨⟨kind, name, origin, notes, assets, salt, timechain, parsing⟩, paths, sourceRows, rawText,
    attestations⟩ := p
  simp only [contents, LedgerTag.all, List.tail_cons, List.flatMap_cons, List.flatMap_nil, segment,
    List.foldl_append, List.foldl_cons, List.foldl_nil, foldl_optional, foldl_paths,
    foldl_sourceRows, foldl_attestations]
  cases origin <;> cases notes <;> cases assets <;> cases timechain <;> cases parsing <;>
    cases rawText <;> rfl

structure Within (limits : Limits) (p : Package) : Prop where
  sections : ∀ s ∈ p.sections, s.body.length ≤ limits.maxSectionBytes
  targets : ∀ x ∈ p.paths, x.targets.size ≤ limits.maxPathEntries
  entries : ∀ x ∈ p.paths, x.entries.size ≤ limits.maxPathEntries
  cells : ∀ r ∈ p.sourceRows, r.cells.size ≤ limits.maxCellsPerRow

instance (limits : Limits) (p : Package) : Decidable (p.Within limits) :=
  decidable_of_iff ((∀ s ∈ p.sections, s.body.length ≤ limits.maxSectionBytes) ∧
      (∀ x ∈ p.paths, x.targets.size ≤ limits.maxPathEntries) ∧
      (∀ x ∈ p.paths, x.entries.size ≤ limits.maxPathEntries) ∧
      ∀ r ∈ p.sourceRows, r.cells.size ≤ limits.maxCellsPerRow)
    ⟨fun h => ⟨h.1, h.2.1, h.2.2.1, h.2.2.2⟩, fun h => ⟨h.sections, h.targets, h.entries, h.cells⟩⟩

structure Sized (p : Package) : Prop where
  paths : ∀ x ∈ p.paths, x.high < Word.count64
  sourceRows : ∀ r ∈ p.sourceRows, r.row < Word.count64
  rawText : ∀ t ∈ p.rawText, t.first < Word.count64
  attestations : ∀ a ∈ p.attestations, a.row < Word.count64

instance (p : Package) : Decidable p.Sized :=
  decidable_of_iff ((∀ x ∈ p.paths, x.high < Word.count64) ∧
      (∀ r ∈ p.sourceRows, r.row < Word.count64) ∧ (∀ t ∈ p.rawText, t.first < Word.count64) ∧
      ∀ a ∈ p.attestations, a.row < Word.count64)
    ⟨fun h => ⟨h.1, h.2.1, h.2.2.1, h.2.2.2⟩,
      fun h => ⟨h.paths, h.sourceRows, h.rawText, h.attestations⟩⟩

variable {p : Package}

theorem within_iff : p.Within limits ↔
    ∀ s ∈ p.sections, s.Fits limits ∧ s.body.length ≤ limits.maxSectionBytes := by
  constructor
  · intro h s hs
    refine ⟨?_, h.sections s hs⟩
    rw [mem_sections] at hs
    cases s with
    | path x =>
      have hx : x ∈ p.paths := by simpa [segment, LedgerSection.tag] using hs
      exact ⟨h.targets x hx, h.entries x hx⟩
    | sourceRow r => exact h.cells r (by simpa [segment, LedgerSection.tag] using hs)
    | _ => trivial
  · intro h
    have hpath (x : Path) (hx : x ∈ p.paths) : (LedgerSection.path x).Fits limits :=
      (h _ (mem_sections.2 (List.mem_map_of_mem hx))).1
    exact ⟨fun s hs => (h s hs).2, fun x hx => (hpath x hx).1, fun x hx => (hpath x hx).2,
      fun r hr => (h (.sourceRow r) (mem_sections.2 (List.mem_map_of_mem hr))).1⟩

theorem Sized.of_mem (h : p.Sized) {s : LedgerSection} (hs : s ∈ p.sections) : s.Sized := by
  rw [mem_sections] at hs
  cases s with
  | path x => exact h.paths x (by simpa [segment, LedgerSection.tag] using hs)
  | sourceRow r => exact h.sourceRows r (by simpa [segment, LedgerSection.tag] using hs)
  | rawText t => exact h.rawText t (by simpa [segment, LedgerSection.tag] using hs)
  | attestation a => exact h.attestations a (by simpa [segment, LedgerSection.tag] using hs)
  | _ => trivial

theorem encode_eq (p : Package) :
    p.encode = (p.sections.map LedgerSection.toSection).flatMap Section.encode := by
  rw [encode, List.flatMap_map]

theorem split_encode (h : ∀ s ∈ p.sections, s.body.length ≤ limits.maxSectionBytes)
    (hlimits : limits.Sized) :
    Section.split limits.maxSectionBytes p.encode =
      (p.sections.map LedgerSection.toSection, none) := by
  rw [encode_eq]
  apply Section.split_encode _ hlimits.sectionBytes
  intro t ht
  obtain ⟨s, hs, rfl⟩ := List.mem_map.1 ht
  exact h s hs

theorem split_exceeding (h : ∃ s ∈ p.sections, limits.maxSectionBytes < s.body.length)
    (hlimits : limits.Sized) :
    ∃ e, (Section.split limits.maxSectionBytes p.encode).2 = some e := by
  rw [encode_eq]
  apply Section.split_exceeding _ hlimits.sectionBytes
  obtain ⟨s, hs, hlong⟩ := h
  exact ⟨s.toSection, List.mem_map_of_mem hs, hlong⟩

theorem decode_eq_ok (hsized : p.Sized) (hwithin : p.Within limits) (hlimits : limits.Sized)
    (index : Nat) : decode limits index p.encode = .ok p := by
  have hsections (s : LedgerSection) (hs : s ∈ p.sections) :
      s.Sized ∧ s.Fits limits ∧ s.body.length ≤ limits.maxSectionBytes :=
    ⟨hsized.of_mem hs, within_iff.1 hwithin s hs⟩
  rw [sections_eq_cons] at hsections
  have hidentity : LedgerSection.ofBody limits .identity _ = .ok _ :=
    have ⟨hs, hf, hb⟩ := hsections _ List.mem_cons_self
    LedgerSection.ofBody_eq_ok hs hf hlimits hb
  have hcontents : LedgerSection.ofSections limits (.place index) _ _ = .ok p.contents :=
    LedgerSection.ofSections_eq_ok p.contents_follow hlimits
      fun s hs => hsections s (List.mem_cons_of_mem _ hs)
  have hsalt : p.contents.any (·.tag = .salt) := by
    rw [List.any_eq_true]
    exact ⟨.salt p.info.salt, List.mem_flatMap.2 ⟨.salt, by decide, List.mem_cons_self⟩, rfl⟩
  rw [decode, split_encode hwithin.sections hlimits, sections_eq_cons, List.map_cons]
  have htag : (LedgerSection.identity p.info.kind p.info.name).tag = .identity := rfl
  simp only [LedgerSection.toSection, htag, hidentity]
  rw [if_neg (not_not_intro rfl)]
  simp only [bind, Except.bind]
  rw [hcontents]
  simp only [hsalt, if_true, foldl_contents]
  rfl

theorem decode_of_fault {bytes : Bytes} {e : ValueError}
    (h : (Section.split limits.maxSectionBytes bytes).2 = some e) (index : Nat) :
    ∃ e, decode limits index bytes = .error e := by
  rw [decode]
  generalize Section.split limits.maxSectionBytes bytes = found at h
  obtain ⟨_ | ⟨first, rest⟩, fault⟩ := found
  · cases h
    exact ⟨_, rfl⟩
  · cases h
    dsimp only
    split
    · exact ⟨_, rfl⟩
    · apply exists_error_bind
      intro identity
      apply exists_error_bind
      intro contents
      exact ⟨_, rfl⟩

theorem decode_error (hsized : p.Sized) (hexceeds : ¬p.Within limits) (hlimits : limits.Sized)
    (index : Nat) : ∃ e, decode limits index p.encode = .error e := by
  by_cases hbodies : ∀ s ∈ p.sections, s.body.length ≤ limits.maxSectionBytes
  · have hunfit : ∃ s ∈ p.contents, ¬s.Fits limits := by
      rw [within_iff, sections_eq_cons] at hexceeds
      rw [sections_eq_cons] at hbodies
      by_contra hfits
      simp only [not_exists, not_and, not_not] at hfits
      apply hexceeds
      intro s hs
      refine ⟨?_, hbodies s hs⟩
      rcases List.mem_cons.1 hs with rfl | hs
      · trivial
      · exact hfits s hs
    have hsizes (s : LedgerSection) (hs : s ∈ p.contents) : s.Sized :=
      hsized.of_mem (p.sections_eq_cons ▸ List.mem_cons_of_mem _ hs)
    obtain ⟨e, he⟩ : ∃ e, LedgerSection.ofSections limits (.place index) _ _ = .error e :=
      LedgerSection.ofSections_error p.contents_follow hlimits hsizes hunfit
    rw [decode, split_encode hbodies hlimits, sections_eq_cons, List.map_cons]
    dsimp only
    split
    · exact ⟨_, rfl⟩
    · apply exists_error_bind
      intro identity
      rw [he]
      exact ⟨e, rfl⟩
  · obtain ⟨e, he⟩ := split_exceeding (by simpa using hbodies) hlimits
    exact decode_of_fault he index

end Package

end SkipChain
