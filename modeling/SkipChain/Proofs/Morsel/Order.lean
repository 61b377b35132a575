import SkipChain.Proofs.Morsel.Decoded
/-!
The order of the sections in a morsel that is read. At the top they are in order, and so are those
in the part for each ledger but for further identities, which are passed over wherever they stand.
-/
namespace SkipChain

variable {limits : Limits} {ss : List Section} {s : Section}

namespace LedgerTag

def Ordered (ts : List LedgerTag) : Prop :=
  ts.Pairwise fun s t => s.code < t.code ∨ (s.code = t.code ∧ t.repeatable = true)

instance (ts : List LedgerTag) : Decidable (Ordered ts) :=
  inferInstanceAs (Decidable (List.Pairwise _ ts))

theorem ordered_iff {ts : List LedgerTag} : Ordered ts ↔ ts.Pairwise Precedes :=
  List.Pairwise.iff fun _ _ => outOfOrder_eq_false_iff.symm

def among (ss : List Section) : List LedgerTag := ss.filterMap fun s => ofCode? s.tag

theorem among_cons {t : LedgerTag} (h : s.tag = t.code) : among (s :: ss) = t :: among ss :=
  List.filterMap_cons_some (h ▸ ofCode?_code t)

end LedgerTag

namespace MorselTag

def Ordered (ts : List MorselTag) : Prop :=
  ts.Pairwise fun s t => s.code < t.code ∨ (s.code = t.code ∧ t.repeatable = true)

instance (ts : List MorselTag) : Decidable (Ordered ts) :=
  inferInstanceAs (Decidable (List.Pairwise _ ts))

theorem ordered_iff {ts : List MorselTag} : Ordered ts ↔ ts.Pairwise Precedes :=
  List.Pairwise.iff fun _ _ => outOfOrder_eq_false_iff.symm

def among (ss : List Section) : List MorselTag := ss.filterMap fun s => ofCode? s.tag

theorem among_cons {t : MorselTag} (h : s.tag = t.code) : among (s :: ss) = t :: among ss :=
  List.filterMap_cons_some (h ▸ ofCode?_code t)

theorem among_append (ss ss' : List Section) : among (ss ++ ss') = among ss ++ among ss' :=
  List.filterMap_append

end MorselTag

namespace LedgerSection

variable {contents : List LedgerSection}

theorem filter_among (h : (rules limits).Accepts .identity ss contents) :
    (LedgerTag.among ss).filter (· ≠ .identity) = contents.map tag := by
  have htags : ss.filterMap LedgerTag.later? = contents.map tag := h.filterMap_known
  rw [← htags, LedgerTag.among, List.filter_filterMap]
  rfl

theorem ordered_of_accepts (h : (rules limits).Accepts .identity ss contents) :
    LedgerTag.Ordered (.identity :: (LedgerTag.among ss).filter (· ≠ .identity)) ∧
      (LedgerTag.Ordered (.identity :: LedgerTag.among ss) ↔ .identity ∉ LedgerTag.among ss) := by
  have hordered : LedgerTag.Ordered (.identity :: (LedgerTag.among ss).filter (· ≠ .identity)) := by
    rw [filter_among h, LedgerTag.ordered_iff]
    exact h.pairwise
  refine ⟨hordered, fun horder hmem => ?_, fun hnone => ?_⟩
  · have hrepeated := (List.pairwise_cons.1 horder).1 .identity hmem
    exact absurd hrepeated (by decide)
  · have hall : (LedgerTag.among ss).filter (· ≠ .identity) = LedgerTag.among ss := by
      apply List.filter_eq_self.2
      intro t ht
      exact decide_eq_true fun heq => hnone (heq ▸ ht)
    rwa [hall] at hordered

end LedgerSection

namespace MorselSection

variable {contents : List MorselSection}

theorem among_eq (h : (rules limits).Accepts .ledgers ss contents) :
    MorselTag.among ss = contents.map tag := h.filterMap_known

theorem count_ledger (contents : List MorselSection) :
    (contents.map tag).count .ledger = (contents.filterMap package?).length := by
  induction contents with
  | nil => rfl
  | cons s contents ih => cases s <;> simp [tag, package?, List.filterMap_cons, ih]

theorem decode_of_mem (h : (rules limits).Accepts .ledgers ss contents) (hs : s ∈ ss)
    (htag : s.tag = MorselTag.ledger.code) :
    ∃ index p, Package.decode limits index s.body = .ok p := by
  have hknown : MorselTag.ofCode? s.tag = some .ledger := by rw [htag, MorselTag.ofCode?_code]
  obtain ⟨c, hc, hbody⟩ := h.exists_content hs hknown
  cases c with
  | ledger p =>
    obtain ⟨index, hp⟩ := hbody
    exact ⟨index, p, hp⟩
  | _ => cases hc

end MorselSection

namespace Morsel

variable {m : Morsel} {data : Bytes}

/-- The sections of a morsel that is read are in order at the top: the list of ledgers, then no
section before one with a lower tag and none but the parts for ledgers more than once, of which
there are as many as ledgers are listed. In each part the identity comes first and the sections
after it are in order if the further identities among them are dropped; with them they are in order
only if there are none. -/
theorem order_of_decode (h : decode limits data = .ok m) :
    ∃ first rest, Section.split limits.maxSectionBytes (middle data) = (first :: rest, none) ∧
      first.tag = MorselTag.ledgers.code ∧
      (decodeList limits).eval first.body = .ok m.names ∧
      MorselTag.Ordered (MorselTag.among (first :: rest)) ∧
      (MorselTag.among (first :: rest)).count .ledger = m.names.length ∧
      ∀ s ∈ rest, s.tag = MorselTag.ledger.code →
        ∃ identity parts, Section.split limits.maxSectionBytes s.body = (identity :: parts, none) ∧
          identity.tag = LedgerTag.identity.code ∧
          LedgerTag.Ordered (.identity :: (LedgerTag.among parts).filter (· ≠ .identity)) ∧
          (LedgerTag.Ordered (LedgerTag.among (identity :: parts)) ↔
            .identity ∉ LedgerTag.among parts) := by
  obtain ⟨-, h⟩ := decode_spec h
  obtain ⟨first, rest, contents, hsplit, htag, hnames, haccepts, hm, -⟩ := decodeSections_spec h
  have htags : MorselTag.among (first :: rest) = .ledgers :: contents.map MorselSection.tag := by
    rw [MorselTag.among_cons htag, MorselSection.among_eq haccepts]
  refine ⟨first, rest, hsplit, htag, hnames, ?_, ?_, ?_⟩
  · rw [htags, MorselTag.ordered_iff]
    exact haccepts.pairwise
  · rw [htags, List.count_cons_of_ne (by decide), MorselSection.count_ledger, length_names, hm]
  · intro s hs hledger
    obtain ⟨index, p, hp⟩ := MorselSection.decode_of_mem haccepts hs hledger
    obtain ⟨identity, parts, kind, name, inner, hparts, hidentity, -, hinner, -, -⟩ :=
      Package.decode_spec hp
    refine ⟨identity, parts, hparts, hidentity, ?_⟩
    rw [LedgerTag.among_cons hidentity]
    exact LedgerSection.ordered_of_accepts hinner

def interspersed : Bytes :=
  [83, 75, 76, 77, 0, 1, 1, 0, 1, 5, 2, 1, 97, 1, 98, 127, 1, 7, 16, 11, 1, 3, 1, 1, 97, 32, 1, 0,
    5, 1, 2, 16, 10, 1, 3, 3, 1, 98, 5, 1, 2, 32, 0, 18, 115, 254, 199]

theorem order_of_decode_interspersed :
    ∃ first rest, Section.split Limits.default.maxSectionBytes (middle interspersed) =
        (first :: rest, none) ∧
      MorselTag.among (first :: rest) = [.ledgers, .ledger, .ledger] ∧
      ∀ s ∈ rest, s.tag = MorselTag.ledger.code →
        LedgerTag.Ordered
          (LedgerTag.among (Section.split Limits.default.maxSectionBytes s.body).1) := by
  have h : decode .default interspersed =
      .ok ⟨.sha256, none, none, [.new (.new .table "a"), .new (.new .log "b")]⟩ := by
    decide +kernel
  obtain ⟨first, rest, hsplit, -, -, -, -, hparts⟩ := order_of_decode h
  have hone : ∀ s ∈ (Section.split Limits.default.maxSectionBytes (middle interspersed)).1,
      .identity ∉ LedgerTag.among
        (Section.split Limits.default.maxSectionBytes s.body).1.tail := by decide +kernel
  refine ⟨first, rest, hsplit, ?_, ?_⟩
  · have htags : MorselTag.among
        (Section.split Limits.default.maxSectionBytes (middle interspersed)).1 =
          [.ledgers, .ledger, .ledger] := by decide +kernel
    rwa [hsplit] at htags
  · intro s hs htag
    obtain ⟨identity, parts, hsplits, -, -, hiff⟩ := hparts s hs htag
    have hnone := hone s (by rw [hsplit]; exact List.mem_cons_of_mem first hs)
    rw [hsplits] at hnone ⊢
    exact hiff.2 hnone

/-- A table named a, and after its salt scheme the identity of a log named b. -/
def identifiedTwice : Bytes :=
  [83, 75, 76, 77, 0, 1, 1, 0, 1, 3, 1, 1, 97, 16, 13, 1, 3, 1, 1, 97, 5, 1, 2, 1, 3, 3, 1, 98,
    232, 84, 130, 38]

theorem disordered_identifiedTwice :
    decode .default identifiedTwice = .ok ⟨.sha256, none, none, [.new (.new .table "a")]⟩ ∧
      ∃ s ∈ (Section.split Limits.default.maxSectionBytes (middle identifiedTwice)).1,
        s.tag = MorselTag.ledger.code ∧
          ¬LedgerTag.Ordered
            (LedgerTag.among (Section.split Limits.default.maxSectionBytes s.body).1) := by
  decide +kernel

end Morsel

end SkipChain
