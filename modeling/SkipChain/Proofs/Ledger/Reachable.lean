import SkipChain.Ledger.Basic
import SkipChain.Proofs.Preimage
/-!
The ledgers that appending and cutting back lead to. In each of them every row's hash is the one
that its input hash and the rows below it give, whatever was appended and cut off before.
-/
namespace SkipChain.Ledger

variable {l l' : Ledger} {n m : Nat}

theorem row?_eq_some_iff {r : LedgerRow} :
    l.row? n = some r ↔ n ≠ 0 ∧ l.rows[n - 1]? = some r := by
  unfold row?
  split <;> simp [*]

theorem exists_row?_iff : (∃ r, l.row? n = some r) ↔ 1 ≤ n ∧ n ≤ l.size := by
  simp only [row?_eq_some_iff, exists_and_left]
  constructor
  · rintro ⟨hn, r, hr⟩
    have hlt := (Array.getElem?_eq_some_iff.1 hr).1
    rw [size]
    omega
  · rintro ⟨hpos, hsize⟩
    rw [size] at hsize
    exact ⟨by omega, _, Array.getElem?_eq_getElem (by omega)⟩

theorem rowHash_of_row? {r : LedgerRow} (h : l.row? n = some r) : l.rowHash n = .ok r.hash := by
  have hn := (row?_eq_some_iff.1 h).1
  simp [rowHash, hn, h]

theorem inputHash_of_row? {r : LedgerRow} (h : l.row? n = some r) :
    l.inputHash n = .ok r.input := by
  simp [inputHash, h]

theorem exists_row?_of_rowHash {hash : Digest} (hn : n ≠ 0) (h : l.rowHash n = .ok hash) :
    ∃ r, l.row? n = some r ∧ r.hash = hash := by
  rw [rowHash, if_neg hn] at h
  cases hrow : l.row? n with
  | none => simp [hrow] at h
  | some r =>
    rw [hrow] at h
    exact ⟨r, rfl, Except.ok.inj h⟩

theorem rowHash_eq_hashBelow (h : n ≤ l.size) : l.rowHash n = .ok (l.hashBelow n) := by
  by_cases hn : n = 0
  · subst hn
    rfl
  · obtain ⟨r, hr⟩ := exists_row?_iff.2 ⟨by omega, h⟩
    rw [rowHash_of_row? hr, hashBelow, hr]
    rfl

@[simp] theorem algorithm_append (l : Ledger) (input : Digest) :
    (l.append input).algorithm = l.algorithm := rfl

@[simp] theorem size_append (l : Ledger) (input : Digest) :
    (l.append input).size = l.size + 1 := Array.size_push _

theorem row?_append (l : Ledger) (input : Digest) (n : Nat) :
    (l.append input).row? n =
      if n = l.size + 1 then some ⟨input, l.nextHash input⟩ else l.row? n := by
  by_cases hn : n = 0
  · subst hn
    rfl
  · have hlast : n - 1 = l.rows.size ↔ n = l.size + 1 := by rw [size]; omega
    simp only [row?, if_neg hn, append, Array.getElem?_push, hlast]

theorem hashBelow_append (input : Digest) (h : n ≤ l.size) :
    (l.append input).hashBelow n = l.hashBelow n := by
  rw [hashBelow, row?_append, if_neg (by omega), hashBelow]

theorem trim_eq_ok_iff : l.trim n = .ok l' ↔ n ≤ l.size ∧ l' = { l with rows := l.rows.take n } := by
  unfold trim
  split
  · next h => simp [Nat.not_le.2 h]
  · next h => simp [Nat.not_lt.1 h, eq_comm]

theorem row?_trim (h : l.trim m = .ok l') (n : Nat) :
    l'.row? n = if n ≤ m then l.row? n else none := by
  obtain ⟨hm, rfl⟩ := trim_eq_ok_iff.1 h
  by_cases hn : n = 0
  · subst hn
    simp [row?]
  · have hkept : n - 1 < m ↔ n ≤ m := by omega
    rw [size] at hm
    simp only [row?, if_neg hn, Array.take_eq_extract, Array.getElem?_extract, Nat.zero_add,
      Nat.min_eq_left hm, Nat.sub_zero, hkept]

theorem hashBelow_trim (h : l.trim m = .ok l') (hn : n ≤ m) : l'.hashBelow n = l.hashBelow n := by
  rw [hashBelow, row?_trim h, if_pos hn, hashBelow]

inductive Reachable : Ledger → Prop where
  | new (algorithm : Algorithm) : Reachable (Ledger.new algorithm)
  | append {l : Ledger} (input : Digest) : Reachable l → Reachable (l.append input)
  | trim {l l' : Ledger} {n : Nat} : Reachable l → l.trim n = .ok l' → Reachable l'

theorem links_congr (h : ∀ k < n, l'.hashBelow k = l.hashBelow k) :
    (Skip.references n).map l'.hashBelow = (Skip.references n).map l.hashBelow :=
  List.map_congr_left fun k hk => h k (Skip.lt_of_mem_references hk)

def Linked (l : Ledger) : Prop :=
  ∀ n r, l.row? n = some r →
    r.hash = l.algorithm.digest.link r.input ((Skip.references n).map l.hashBelow)

theorem linked_new (algorithm : Algorithm) : (Ledger.new algorithm).Linked := by
  intro n r h
  simp [row?, Ledger.new] at h

theorem Linked.append (linked : l.Linked) (input : Digest) : (l.append input).Linked := by
  intro n r h
  rw [row?_append] at h
  split at h
  · next hlast =>
    subst hlast
    obtain rfl := Option.some.inj h
    rw [links_congr fun k hk => hashBelow_append input (by omega), nextHash, algorithm_append]
  · have hn := exists_row?_iff.1 ⟨r, h⟩
    rw [linked n r h, links_congr fun k hk => hashBelow_append input (by omega), algorithm_append]

theorem Linked.trim (linked : l.Linked) (h : l.trim m = .ok l') : l'.Linked := by
  intro n r hr
  rw [row?_trim h] at hr
  split at hr
  · have halgorithm : l'.algorithm = l.algorithm := by rw [(trim_eq_ok_iff.1 h).2]
    rw [linked n r hr, links_congr fun k hk => hashBelow_trim h (by omega), halgorithm]
  · simp at hr

theorem Reachable.linked (reachable : l.Reachable) : l.Linked := by
  induction reachable with
  | new algorithm => exact linked_new algorithm
  | append input _ ih => exact ih.append input
  | trim _ h ih => exact ih.trim h

def linkPreimage? (l : Ledger) (n : Nat) : Option Bytes :=
  (l.row? n).map fun r => linkPreimage r.input ((Skip.references n).map l.hashBelow)

def linkPreimages (l : Ledger) (n : Nat) : List Bytes :=
  (List.range (n + 1)).filterMap l.linkPreimage?

theorem mem_linkPreimages {r : LedgerRow} (hr : l.row? n = some r) (hn : n ≤ m) :
    linkPreimage r.input ((Skip.references n).map l.hashBelow) ∈ l.linkPreimages m :=
  List.mem_filterMap.2 ⟨n, List.mem_range.2 (by omega), by rw [linkPreimage?, hr]; rfl⟩

end SkipChain.Ledger
