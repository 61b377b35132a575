import Mathlib.Control.Monad.Basic
import Mathlib.Logic.Relation
import SkipChain.Proofs.Ledger.Reachable
import SkipChain.Proofs.Path.Check
/-!
Paths prove what they record. However a path was put together, once it is accepted against the hash
that a ledger has for a row, it tells the truth about every row that hangs below that row.
-/
namespace SkipChain

/-- The ledger has the hash that an entry records of a row, and the input hash if it records one. -/
def Ledger.Confirms (l : Ledger) (n : Nat) (e : PathEntry) : Prop :=
  l.rowHash n = .ok e.hash ∧ ∀ input, e.input = some input → l.inputHash n = .ok input

namespace Path

variable {l : Ledger} {p : Path} {n m top : Nat} {e : PathEntry} {input : Digest}

def LinksTo (p : Path) (m n : Nat) : Prop := p.isExpanded m ∧ n ∈ Skip.references m

theorem LinksTo.bounds (h : p.LinksTo m n) : n < m ∧ m ≤ p.high := by
  obtain ⟨e, he⟩ := contains_iff.1 (contains_of_isExpanded h.1)
  exact ⟨Skip.lt_of_mem_references h.2, (entry_bounds he).2⟩

def Reaches (p : Path) : Nat → Nat → Prop := Relation.ReflTransGen p.LinksTo

/-- The bytes that the hash of an expanded row is recomputed from, if the path has them all. -/
def linkPreimage? (p : Path) (n : Nat) : Option Bytes :=
  if (Skip.references n).all fun r => r = 0 || p.contains r then
    (p.input? n).map fun input => linkPreimage input ((Skip.references n).map p.referenceHash)
  else none

def linkPreimages (p : Path) : List Bytes := p.entries.keys.filterMap p.linkPreimage?

theorem mem_linkPreimages (he : p.entry? n = some e) (hinput : e.input = some input)
    (hpresent : ∀ r ∈ Skip.references n, r ≠ 0 → p.contains r) :
    linkPreimage input ((Skip.references n).map p.referenceHash) ∈ p.linkPreimages := by
  refine List.mem_filterMap.2 ⟨n, NatMap.mem_keys.2 ⟨e, he⟩, ?_⟩
  have hall : (Skip.references n).all fun r => r = 0 || p.contains r := by
    simp only [List.all_eq_true, Bool.or_eq_true, decide_eq_true_eq]
    intro r hr
    by_cases h0 : r = 0
    · exact .inl h0
    · exact .inr (hpresent r hr h0)
  rw [linkPreimage?, if_pos hall, input?, he, Option.bind_some, hinput, Option.map_some]

/-- A row of a path that has the ledger's hash has the ledger's links as well, since hashes are only
alike when the bytes that they are taken over are. -/
theorem LinksHold.confirms (links : p.LinksHold l.algorithm.digest) (linked : l.Linked)
    (free : l.algorithm.digest.CollisionFree (l.linkPreimages top ++ p.linkPreimages))
    (htop : n ≤ top) (he : p.entry? n = some e) (hhash : l.rowHash n = .ok e.hash)
    (hinput : e.input = some input) :
    l.inputHash n = .ok input ∧
      ∀ r ∈ Skip.references n, r ≠ 0 → ∃ hash, p.hash? r = some hash ∧ l.rowHash r = .ok hash := by
  obtain ⟨row, hrow, hrowHash⟩ := Ledger.exists_row?_of_rowHash (entry_bounds he).1 hhash
  obtain ⟨hpresent, hlink⟩ := links n e input he hinput
  have halike : l.algorithm.digest.link input ((Skip.references n).map p.referenceHash) =
      l.algorithm.digest.link row.input ((Skip.references n).map l.hashBelow) := by
    rw [hlink, ← linked n row hrow, hrowHash]
  have hsame := free _ (List.mem_append_right _ (mem_linkPreimages he hinput hpresent))
    _ (List.mem_append_left _ (Ledger.mem_linkPreimages hrow htop)) halike
  obtain ⟨hrowInput, hreferences⟩ := linkPreimage_injective hsame
  refine ⟨by rw [Ledger.inputHash_of_row? hrow, hrowInput], fun r hr h0 => ?_⟩
  have hsize := (Ledger.exists_row?_iff.1 ⟨row, hrow⟩).2
  have hbelow := Skip.lt_of_mem_references hr
  obtain ⟨e', he'⟩ := contains_iff.1 (hpresent r hr h0)
  have hfound := hash?_of_entry he'
  have hagree := List.map_inj_left.1 hreferences r hr
  rw [referenceHash, if_neg h0, hfound, Option.getD_some] at hagree
  exact ⟨e'.hash, hfound, by rw [Ledger.rowHash_eq_hashBelow (by omega), hagree]⟩

/-- All that a row with the ledger's hash leads to is the ledger's. The induction goes down the
links: each row reached has the ledger's hash because the one above it does. -/
theorem LinksHold.rowHash_of_reaches (links : p.LinksHold l.algorithm.digest) (linked : l.Linked)
    (free : l.algorithm.digest.CollisionFree (l.linkPreimages m ++ p.linkPreimages))
    {hash : Digest} (hroot : p.hash? m = some hash) (hknown : l.rowHash m = .ok hash)
    (reaches : p.Reaches m n) :
    n ≤ m ∧ ∀ e, p.entry? n = some e → l.rowHash n = .ok e.hash := by
  induction reaches with
  | refl =>
    refine ⟨Nat.le_refl m, fun e he => ?_⟩
    rw [hash?_of_entry he] at hroot
    rw [hknown, Option.some.inj hroot]
  | tail _ step ih =>
    obtain ⟨e, input, he, hinput⟩ := isExpanded_iff.1 step.1
    have hlinks := (links.confirms linked free ih.1 he (ih.2 e he) hinput).2
    refine ⟨Nat.le_of_lt (Nat.lt_of_lt_of_le (Skip.lt_of_mem_references step.2) ih.1), ?_⟩
    intro e' he'
    obtain ⟨found, hfound, htrue⟩ := hlinks _ step.2 (entry_bounds he').1
    rw [hash?_of_entry he'] at hfound
    rw [htrue, Option.some.inj hfound]

/-- In a rooted path the high row leads to all others: what is linked to from a row above leads up
to the high row in the end. -/
theorem Rooted.reaches (rooted : p.Rooted) (h : p.contains n) : p.Reaches p.high n := by
  induction hgap : p.high - n using Nat.strongRecOn generalizing n with
  | ind gap ih =>
    by_cases hhigh : n = p.high
    · rw [hhigh]
      exact Relation.ReflTransGen.refl
    · obtain ⟨m, hm, hn⟩ := rooted.2 n h hhigh
      have hlink : p.LinksTo m n := ⟨hm, hn⟩
      have hbounds := hlink.bounds
      exact (ih (p.high - m) (by omega) (contains_of_isExpanded hm) rfl).tail hlink

/-- A path that is accepted against the hash of a ledger's row is right about every row that this
row leads to; against the hash of its high row it is right about everything. -/
theorem confirms_of_verify {l : Ledger} (reachable : l.Reachable) (p : Path) {row : Nat}
    {hash : Digest} (hhash : l.rowHash row = .ok hash)
    (accepted : p.verify l.algorithm.digest hash row = .ok ())
    (free : l.algorithm.digest.CollisionFree (l.linkPreimages row ++ p.linkPreimages)) :
    (∀ n e, p.Reaches row n → p.entry? n = some e → l.Confirms n e) ∧
      (row = p.high → ∀ n e, p.entry? n = some e → l.Confirms n e) := by
  obtain ⟨links, hroot, rooted⟩ := verify_eq_ok_iff.1 accepted
  have linked := reachable.linked
  have hreached : ∀ n e, p.Reaches row n → p.entry? n = some e → l.Confirms n e := by
    intro n e reaches he
    obtain ⟨hn, htrue⟩ := links.rowHash_of_reaches linked free hroot hhash reaches
    refine ⟨htrue e he, fun input hinput => ?_⟩
    exact (links.confirms linked free hn he (htrue e he) hinput).1
  refine ⟨hreached, fun hhigh n e he => hreached n e ?_ he⟩
  rw [hhigh]
  exact rooted.reaches (contains_iff.2 ⟨e, he⟩)

def twoRows : Ledger :=
  .ofInputs .sha256 [.filled 1, .filled 2]

def forgedAbove : Path where
  low := 0
  high := 4
  targets := .empty
  entries :=
    let forged : Digest := .filled 9
    .ofList [(1, ⟨twoRows.hashBelow 1, some (.filled 1)⟩),
      (2, ⟨twoRows.hashBelow 2, some (.filled 2)⟩),
      (3, ⟨forged, none⟩),
      (4, ⟨twoRows.algorithm.digest.link forged [forged, twoRows.hashBelow 2, .sentinel],
        some forged⟩)]
  faultless := by decide

theorem confirms_forgedAbove :
    forgedAbove.verify twoRows.algorithm.digest (twoRows.hashBelow 2) 2 = .ok () ∧
      twoRows.Confirms 1 ⟨twoRows.hashBelow 1, some (.filled 1)⟩ := by
  have accepted : forgedAbove.verify twoRows.algorithm.digest (twoRows.hashBelow 2) 2 = .ok () := by
    decide +kernel
  have reachable : twoRows.Reachable := .append _ (.append _ (.new _))
  have reaches : forgedAbove.Reaches 2 1 := .single ⟨by decide, by decide⟩
  have confirmed := confirms_of_verify reachable forgedAbove (Ledger.rowHash_eq_hashBelow (by decide))
    accepted (by decide +kernel)
  exact ⟨accepted, confirmed.1 1 _ reaches rfl⟩

end Path

end SkipChain
