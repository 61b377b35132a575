import Mathlib.Logic.Relation
import SkipChain.Proofs.Morsel.Order
import SkipChain.Proofs.Morsel.Spelling
/-!
Morsels with sections that have no meaning yet. Wherever such sections are put into a morsel that
is accepted, at the top or in the part for a ledger, it is accepted and read as before.
-/
namespace SkipChain

open Section (Spells)

variable {limits : Limits} {bytes bytes' before after : Bytes} {s : Section}
  {ss earlier later later' : List Section}

theorem find?_code_eq_none {τ : Type} {tags : List τ} {code : τ → UInt8} {tag : UInt8}
    (h : ∀ t, tag ≠ code t) : (tags.find? fun t => code t == tag) = none := by
  rw [List.find?_eq_none]
  intro t _ hcode
  exact h t (beq_iff_eq.1 hcode).symm

namespace LedgerSection

theorem ofSections_append_congr {scope : Scope}
    (h : ∀ last, ofSections limits scope last later = ofSections limits scope last later')
    (earlier : List Section) (last : LedgerTag) :
    ofSections limits scope last (earlier ++ later) =
      ofSections limits scope last (earlier ++ later') := by
  induction earlier generalizing last with
  | nil => exact h last
  | cons s earlier ih =>
    rw [List.cons_append, List.cons_append, ofSections, ofSections]
    simp only [ih]

theorem ofSections_cons_unknown {scope : Scope} {last : LedgerTag}
    (h : ∀ t : LedgerTag, s.tag ≠ t.code) :
    ofSections limits scope last (s :: ss) = ofSections limits scope last ss := by
  have htag : LedgerTag.ofCode? s.tag = none := find?_code_eq_none h
  rw [ofSections, htag]

end LedgerSection

namespace Package

variable {index : Nat} {p : Package}

theorem decode_eq_of_unknown {first : Section} (h : decode limits index (before ++ after) = .ok p)
    (hbefore : Section.Spells limits.maxSectionBytes before (first :: earlier))
    (hmore : Section.Spells limits.maxSectionBytes bytes [s])
    (hunknown : ∀ t : LedgerTag, s.tag ≠ t.code) (place : Nat) :
    decode limits place (before ++ bytes ++ after) = decode limits place (before ++ after) := by
  obtain ⟨_, _, _, _, _, hsplit, -⟩ := decode_spec h
  obtain ⟨later, hsections, hafter⟩ := hbefore.of_append (Section.split_eq_iff.1 hsplit)
  have hsplit' := Section.split_eq_iff.2 ((hbefore.append hmore).append hafter)
  rw [hsections] at hsplit
  rw [decode, decode, hsplit, hsplit', List.append_assoc]
  simp only [List.cons_append, List.nil_append]
  rw [LedgerSection.ofSections_append_congr fun _ => LedgerSection.ofSections_cons_unknown hunknown]

end Package

namespace MorselSection

theorem ofSections_append_congr {names : List String}
    (h : ∀ last index,
      ofSections limits names last index later = ofSections limits names last index later')
    (earlier : List Section) (last : MorselTag) (index : Nat) :
    ofSections limits names last index (earlier ++ later) =
      ofSections limits names last index (earlier ++ later') := by
  induction earlier generalizing last index with
  | nil => exact h last index
  | cons s earlier ih =>
    rw [List.cons_append, List.cons_append, ofSections, ofSections]
    simp only [ih]

theorem ofSections_cons_unknown {names : List String} {last : MorselTag} {index : Nat}
    (h : ∀ t : MorselTag, s.tag ≠ t.code) :
    ofSections limits names last index (s :: ss) = ofSections limits names last index ss := by
  have htag : MorselTag.ofCode? s.tag = none := find?_code_eq_none h
  rw [ofSections, htag]

theorem ofSections_cons_ledger {names : List String} {last : MorselTag} {index : Nat}
    (h : ∀ place, Package.decode limits place bytes = Package.decode limits place bytes') :
    ofSections limits names last index (⟨MorselTag.ledger.code, bytes⟩ :: ss) =
      ofSections limits names last index (⟨MorselTag.ledger.code, bytes'⟩ :: ss) := by
  have hledger : decodeLedger limits names index bytes =
      decodeLedger limits names index bytes' := by
    simp only [decodeLedger, h]
  rw [ofSections, ofSections]
  simp only [MorselTag.ofCode?_code, hledger]

end MorselSection

namespace Morsel

variable {m : Morsel} {data data' : Bytes} {algorithm : Algorithm}

theorem decodeSections_congr {first : Section}
    (hsplit : Section.split limits.maxSectionBytes bytes = (first :: later, none))
    (hsplit' : Section.split limits.maxSectionBytes bytes' = (first :: later', none))
    (h : ∀ names last index, MorselSection.ofSections limits names last index later =
      MorselSection.ofSections limits names last index later') :
    decodeSections limits algorithm bytes' = decodeSections limits algorithm bytes := by
  rw [decodeSections, decodeSections, hsplit, hsplit']
  simp only [h]

/-- The data is put together with one more section, of a tag without a meaning: after the list of
ledgers, or in the part for a ledger after its identity. The length of that part and the checksum
are made to match. -/
inductive Extends (limits : Limits) (data : Bytes) : Bytes → Prop where
  | top {before after more : Bytes} {first s : Section} {earlier : List Section}
    (hmiddle : middle data = before ++ after)
    (hbefore : Spells limits.maxSectionBytes before (first :: earlier))
    (hmore : Spells limits.maxSectionBytes more [s])
    (hunknown : ∀ t : MorselTag, s.tag ≠ t.code) :
    Extends limits data (withChecksum (data.take headerLength ++ (before ++ more ++ after)))
  | part {before after old new body body' more : Bytes} {first s : Section}
    {earlier earlier' : List Section}
    (hmiddle : middle data = before ++ old ++ after)
    (hbefore : Spells limits.maxSectionBytes before earlier)
    (hold : Spells limits.maxSectionBytes old [⟨MorselTag.ledger.code, body ++ body'⟩])
    (hbody : Spells limits.maxSectionBytes body (first :: earlier'))
    (hmore : Spells limits.maxSectionBytes more [s])
    (hunknown : ∀ t : LedgerTag, s.tag ≠ t.code)
    (hnew : Spells limits.maxSectionBytes new [⟨MorselTag.ledger.code, body ++ more ++ body'⟩]) :
    Extends limits data (withChecksum (data.take headerLength ++ (before ++ new ++ after)))

theorem decodeSections_of_top {first : Section}
    (h : decodeSections limits algorithm (before ++ after) = .ok m)
    (hbefore : Spells limits.maxSectionBytes before (first :: earlier))
    (hmore : Spells limits.maxSectionBytes bytes [s]) (hunknown : ∀ t : MorselTag, s.tag ≠ t.code) :
    decodeSections limits algorithm (before ++ bytes ++ after) = .ok m := by
  obtain ⟨_, _, _, hsplit, -⟩ := decodeSections_spec h
  obtain ⟨later, hsections, hafter⟩ := hbefore.of_append (Section.split_eq_iff.1 hsplit)
  have hsplit' := Section.split_eq_iff.2 ((hbefore.append hmore).append hafter)
  rw [hsections, List.cons_append] at hsplit
  rw [List.append_assoc (first :: earlier), List.cons_append] at hsplit'
  rw [← h]
  apply decodeSections_congr hsplit hsplit'
  intro names
  apply MorselSection.ofSections_append_congr
  intro last index
  exact (MorselSection.ofSections_cons_unknown hunknown).symm

theorem decodeSections_of_part {old new body body' more : Bytes} {first : Section}
    {earlier' : List Section} (h : decodeSections limits algorithm (before ++ old ++ after) = .ok m)
    (hbefore : Spells limits.maxSectionBytes before earlier)
    (hold : Spells limits.maxSectionBytes old [⟨MorselTag.ledger.code, body ++ body'⟩])
    (hbody : Spells limits.maxSectionBytes body (first :: earlier'))
    (hmore : Spells limits.maxSectionBytes more [s]) (hunknown : ∀ t : LedgerTag, s.tag ≠ t.code)
    (hnew : Spells limits.maxSectionBytes new [⟨MorselTag.ledger.code, body ++ more ++ body'⟩]) :
    decodeSections limits algorithm (before ++ new ++ after) = .ok m := by
  obtain ⟨list, rest, contents, hsplit, htag, -, haccepts, -⟩ := decodeSections_spec h
  obtain ⟨later, hsections, hafter⟩ :=
    (hbefore.append hold).of_append (Section.split_eq_iff.1 hsplit)
  have hsplit' := Section.split_eq_iff.2 ((hbefore.append hnew).append hafter)
  cases earlier with
  | nil =>
    -- the first section is the list of ledgers and not a part
    cases hsections
    cases htag
  | cons list' earlier =>
    cases hsections
    obtain ⟨index, p, hp⟩ := MorselSection.decode_of_mem haccepts
      (List.mem_append_left later (List.mem_append_right earlier (List.mem_singleton_self _))) rfl
    rw [← h]
    apply decodeSections_congr hsplit hsplit'
    intro names last index
    show MorselSection.ofSections limits names last index (earlier ++ [_] ++ later) =
      MorselSection.ofSections limits names last index (earlier ++ [_] ++ later)
    rw [List.append_assoc, List.append_assoc]
    apply MorselSection.ofSections_append_congr
    intro last index
    apply MorselSection.ofSections_cons_ledger
    intro place
    exact (Package.decode_eq_of_unknown hp hbody hmore hunknown place).symm

theorem decode_of_extends (h : decode limits data = .ok m) (hextends : Extends limits data data') :
    decode limits data' = .ok m := by
  obtain ⟨hlength, halgorithm, -, hsections⟩ := decode_eq_ok_iff.1 h
  have hheader : (data.take headerLength).length = headerLength := by
    rw [List.length_take]
    omega
  cases hextends with
  | top hmiddle hbefore hmore hunknown =>
    rw [decode_withChecksum_append hheader halgorithm]
    rw [hmiddle] at hsections
    exact decodeSections_of_top hsections hbefore hmore hunknown
  | part hmiddle hbefore hold hbody hmore hunknown hnew =>
    rw [decode_withChecksum_append hheader halgorithm]
    rw [hmiddle] at hsections
    exact decodeSections_of_part hsections hbefore hold hbody hmore hunknown hnew

/-- Sections without a meaning may be put in anywhere after the list of ledgers, and in the part for
a ledger anywhere after its identity, and any number of them: the data is read as the same morsel. -/
theorem decode_extended (h : decode limits data = .ok m)
    (hextends : Relation.ReflTransGen (Extends limits) data data') :
    decode limits data' = .ok m := by
  induction hextends with
  | refl => exact h
  | tail _ hstep ih => exact decode_of_extends ih hstep

theorem decode_extended_identifiedTwice :
    ∃ data data', Extends .default identifiedTwice data ∧ Extends .default data data' ∧
      decode .default data' = .ok ⟨.sha256, none, none, [.new (.new .table "a")]⟩ := by
  have h : decode .default identifiedTwice =
      .ok ⟨.sha256, none, none, [.new (.new .table "a")]⟩ := by decide +kernel
  -- the list of ledgers and the identity are the same bytes
  have hfirst : Spells 16777216 [1, 3, 1, 1, 97] [⟨1, [1, 1, 97]⟩] :=
    Section.split_eq_iff.1 (by decide +kernel)
  have hmore : Spells 16777216 ([⟨64, [9]⟩].flatMap Section.encode) [⟨64, [9]⟩] :=
    Section.spells_encode (by decide) (by decide)
  have hold : Spells 16777216 [16, 13, 1, 3, 1, 1, 97, 5, 1, 2, 1, 3, 3, 1, 98]
      [⟨16, [1, 3, 1, 1, 97] ++ [5, 1, 2, 1, 3, 3, 1, 98]⟩] :=
    Section.split_eq_iff.1 (by decide +kernel)
  have hnew : Spells 16777216 [16, 144, 0, 1, 3, 1, 1, 97, 64, 1, 9, 5, 1, 2, 1, 3, 3, 1, 98]
      [⟨16, [1, 3, 1, 1, 97] ++ [64, 1, 9] ++ [5, 1, 2, 1, 3, 3, 1, 98]⟩] :=
    Section.split_eq_iff.1 (by decide +kernel)
  have hmiddle : middle identifiedTwice = [1, 3, 1, 1, 97] ++ [16, 13, 1, 3, 1, 1, 97, 5, 1, 2, 1,
      3, 3, 1, 98] ++ [] := by decide +kernel
  obtain ⟨data, hdata, hpart⟩ : ∃ data, middle data = [1, 3, 1, 1, 97] ++ [16, 144, 0, 1, 3, 1, 1,
      97, 64, 1, 9, 5, 1, 2, 1, 3, 3, 1, 98] ++ [] ∧ Extends .default identifiedTwice data :=
    ⟨_, by decide +kernel,
      .part hmiddle hfirst hold hfirst hmore (by intro t; cases t <;> decide) hnew⟩
  have htop : Extends .default data _ :=
    .top hdata (hfirst.append hnew) hmore (by intro t; cases t <;> decide)
  exact ⟨data, _, hpart, htop, decode_extended h (.tail (.single hpart) htop)⟩

end Morsel

end SkipChain
