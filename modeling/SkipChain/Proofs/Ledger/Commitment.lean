import Mathlib.Control.Monad.Basic
import SkipChain.Proofs.Ledger.Reachable
/-!
A row hash commits to the row's number and to every input up to it. The nearest link of a row leads
to the row before, so equal hashes are followed down in step until one ledger has no row left; there
the other has none either, because no row has the sentinel for its hash.
-/
namespace SkipChain

def Hash.AvoidsSentinel (H : Hash) (preimages : List Bytes) : Prop :=
  ∀ x ∈ preimages, H x ≠ .sentinel

instance (H : Hash) (preimages : List Bytes) : Decidable (H.AvoidsSentinel preimages) :=
  inferInstanceAs (Decidable (∀ x ∈ preimages, H x ≠ .sentinel))

theorem Skip.head?_references {row : Nat} (h : row ≠ 0) :
    (references row).head? = some (row - 1) := by
  simp [references, referenceCount, h, List.range_succ_eq_map]

namespace Ledger

variable {a b l : Ledger} {n m : Nat}

theorem hashBelow_of_row? {r : LedgerRow} (h : l.row? n = some r) : l.hashBelow n = r.hash := by
  rw [hashBelow, h]
  rfl

theorem Linked.hashBelow_eq (linked : l.Linked) {r : LedgerRow} (h : l.row? n = some r) :
    ∃ x ∈ l.linkPreimages l.size, l.hashBelow n = l.algorithm.digest x ∧
      x = linkPreimage r.input ((Skip.references n).map l.hashBelow) := by
  have hn := exists_row?_iff.1 ⟨r, h⟩
  refine ⟨_, mem_linkPreimages h hn.2, ?_, rfl⟩
  rw [hashBelow_of_row? h, linked n r h]
  rfl

theorem Linked.hashBelow_ne_sentinel (linked : l.Linked)
    (avoids : l.algorithm.digest.AvoidsSentinel (l.linkPreimages l.size))
    (hn : n ≠ 0) (hsize : n ≤ l.size) : l.hashBelow n ≠ .sentinel := by
  obtain ⟨r, hr⟩ := exists_row?_iff.2 ⟨Nat.pos_of_ne_zero hn, hsize⟩
  obtain ⟨x, hx, hhash, _⟩ := linked.hashBelow_eq hr
  rw [hhash]
  exact avoids x hx

theorem Linked.step_down (linkedA : a.Linked) (linkedB : b.Linked)
    (halgorithm : a.algorithm = b.algorithm)
    (free : a.algorithm.digest.CollisionFree (a.linkPreimages a.size ++ b.linkPreimages b.size))
    {r s : LedgerRow} (hr : a.row? n = some r) (hs : b.row? m = some s)
    (hhash : a.hashBelow n = b.hashBelow m) :
    r = s ∧ a.hashBelow (n - 1) = b.hashBelow (m - 1) := by
  obtain ⟨x, hx, hxhash, hxeq⟩ := linkedA.hashBelow_eq hr
  obtain ⟨y, hy, hyhash, hyeq⟩ := linkedB.hashBelow_eq hs
  have hxy : x = y := by
    apply free x (List.mem_append_left _ hx) y (List.mem_append_right _ hy)
    rw [← hxhash, hhash, hyhash, halgorithm]
  rw [hxeq, hyeq] at hxy
  obtain ⟨hinput, hlinks⟩ := linkPreimage_injective hxy
  constructor
  · rw [hashBelow_of_row? hr, hashBelow_of_row? hs] at hhash
    cases r
    cases s
    simp_all
  · -- the nearest row that a row links to is the one before it
    have hheads := congrArg List.head? hlinks
    rw [List.head?_map, List.head?_map, Skip.head?_references (row?_eq_some_iff.1 hr).1,
      Skip.head?_references (row?_eq_some_iff.1 hs).1] at hheads
    exact Option.some.inj hheads

theorem Linked.rows_eq_of_hashBelow_eq (linkedA : a.Linked) (linkedB : b.Linked)
    (halgorithm : a.algorithm = b.algorithm)
    (free : a.algorithm.digest.CollisionFree (a.linkPreimages a.size ++ b.linkPreimages b.size))
    (avoidsA : a.algorithm.digest.AvoidsSentinel (a.linkPreimages a.size))
    (avoidsB : b.algorithm.digest.AvoidsSentinel (b.linkPreimages b.size))
    (hn : n ≤ a.size) (hm : m ≤ b.size) (hhash : a.hashBelow n = b.hashBelow m) :
    n = m ∧ ∀ k ≤ n, a.row? k = b.row? k := by
  induction n generalizing m with
  | zero =>
    -- row 0 is told from all others by the sentinel
    have hm0 : m = 0 := by
      by_contra hne
      exact linkedB.hashBelow_ne_sentinel avoidsB hne hm hhash.symm
    subst hm0
    refine ⟨rfl, fun k hk => ?_⟩
    rw [Nat.le_zero.1 hk]
    rfl
  | succ n ih =>
    have hm0 : m ≠ 0 := by
      rintro rfl
      exact linkedA.hashBelow_ne_sentinel avoidsA (Nat.succ_ne_zero n) hn hhash
    obtain ⟨r, hr⟩ := exists_row?_iff.2 ⟨Nat.succ_pos n, hn⟩
    obtain ⟨s, hs⟩ := exists_row?_iff.2 ⟨Nat.pos_of_ne_zero hm0, hm⟩
    obtain ⟨hrs, hbefore⟩ := linkedA.step_down linkedB halgorithm free hr hs hhash
    obtain ⟨hnm, hrows⟩ := ih (by omega) (by omega) hbefore
    obtain rfl : m = n + 1 := by omega
    refine ⟨rfl, fun k hk => ?_⟩
    by_cases hlast : k = n + 1
    · rw [hlast, hr, hs, hrs]
    · exact hrows k (by omega)

theorem getElem?_inputs (l : Ledger) (i : Nat) :
    l.inputs[i]? = (l.row? (i + 1)).map LedgerRow.input := by
  simp [inputs, row?]

theorem take_inputs_eq (h : ∀ k ≤ n, a.row? k = b.row? k) :
    a.inputs.take n = b.inputs.take n := by
  apply List.ext_getElem?
  intro i
  rw [List.getElem?_take, List.getElem?_take]
  split
  · next hi => rw [getElem?_inputs, getElem?_inputs, h (i + 1) hi]
  · rfl

theorem Linked.rows_eq_of_inputs_eq (linkedA : a.Linked) (linkedB : b.Linked)
    (halgorithm : a.algorithm = b.algorithm) (hn : n ≤ a.size) (hm : n ≤ b.size)
    (hinputs : a.inputs.take n = b.inputs.take n) : ∀ k ≤ n, a.row? k = b.row? k := by
  intro k
  induction k using Nat.strongRecOn with
  | ind k ih =>
    intro hk
    by_cases hk0 : k = 0
    · subst hk0
      rfl
    · obtain ⟨r, hr⟩ := exists_row?_iff.2 ⟨Nat.pos_of_ne_zero hk0, Nat.le_trans hk hn⟩
      obtain ⟨s, hs⟩ := exists_row?_iff.2 ⟨Nat.pos_of_ne_zero hk0, Nat.le_trans hk hm⟩
      have hinput : r.input = s.input := by
        have hat := congrArg (·[k - 1]?) hinputs
        simp only [List.getElem?_take, show k - 1 < n by omega, if_true, getElem?_inputs,
          Nat.sub_add_cancel (Nat.pos_of_ne_zero hk0), hr, hs, Option.map_some] at hat
        exact Option.some.inj hat
      have hbelow : ∀ i < k, a.hashBelow i = b.hashBelow i := by
        intro i hi
        rw [hashBelow, hashBelow, ih i hi (by omega)]
      have hhash : r.hash = s.hash := by
        rw [linkedA k r hr, linkedB k s hs, links_congr hbelow, halgorithm, hinput]
      rw [hr, hs]
      cases r
      cases s
      simp_all

theorem rowHash_congr (h : a.row? n = b.row? n) (hn : n ≤ a.size) (hm : n ≤ b.size) :
    a.rowHash n = b.rowHash n := by
  rw [rowHash_eq_hashBelow hn, rowHash_eq_hashBelow hm, hashBelow, hashBelow, h]

/-- Rows of two ledgers have one hash exactly if they have one number and the inputs up to them are
the same; all rows below them are the same then. -/
theorem rowHash_eq_iff_history {a b : Ledger} (reachableA : a.Reachable)
    (reachableB : b.Reachable) (halgorithm : a.algorithm = b.algorithm) {n m : Nat}
    (hn : 1 ≤ n ∧ n ≤ a.size) (hm : 1 ≤ m ∧ m ≤ b.size)
    (free : a.algorithm.digest.CollisionFree (a.linkPreimages a.size ++ b.linkPreimages b.size))
    (avoids : a.algorithm.digest.AvoidsSentinel
      (a.linkPreimages a.size ++ b.linkPreimages b.size)) :
    (a.rowHash n = b.rowHash m ↔ n = m ∧ a.inputs.take n = b.inputs.take n) ∧
      (a.rowHash n = b.rowHash m → ∀ k ≤ n, a.rowHash k = b.rowHash k) := by
  have linkedA := reachableA.linked
  have linkedB := reachableB.linked
  have avoidsA : a.algorithm.digest.AvoidsSentinel (a.linkPreimages a.size) :=
    fun x hx => avoids x (List.mem_append_left _ hx)
  have avoidsB : b.algorithm.digest.AvoidsSentinel (b.linkPreimages b.size) := by
    intro x hx
    rw [← halgorithm]
    exact avoids x (List.mem_append_right _ hx)
  have hsame : a.rowHash n = b.rowHash m → n = m ∧ ∀ k ≤ n, a.row? k = b.row? k := by
    intro hhash
    rw [rowHash_eq_hashBelow hn.2, rowHash_eq_hashBelow hm.2] at hhash
    exact linkedA.rows_eq_of_hashBelow_eq linkedB halgorithm free avoidsA avoidsB hn.2 hm.2
      (Except.ok.inj hhash)
  refine ⟨⟨fun hhash => ?_, ?_⟩, fun hhash k hk => ?_⟩
  · obtain ⟨hnm, hrows⟩ := hsame hhash
    exact ⟨hnm, take_inputs_eq hrows⟩
  · rintro ⟨rfl, hinputs⟩
    have hrows := linkedA.rows_eq_of_inputs_eq linkedB halgorithm hn.2 hm.2 hinputs
    exact rowHash_congr (hrows n (Nat.le_refl n)) hn.2 hm.2
  · obtain ⟨rfl, hrows⟩ := hsame hhash
    exact rowHash_congr (hrows k hk) (Nat.le_trans hk hn.2) (Nat.le_trans hk hm.2)

def redone : Ledger := .ofInputs .sha256 [.filled 1, .filled 3]

def parted : Ledger := .ofInputs .sha256 [.filled 1, .filled 2]

theorem rowHash_eq_iff_history_parted :
    redone.rowHash 1 = parted.rowHash 1 ∧ redone.rowHash 2 ≠ parted.rowHash 2 ∧
      redone.rowHash 1 ≠ parted.rowHash 2 := by
  have full : (Ledger.ofInputs .sha256 [.filled 1, .filled 9]).Reachable :=
    .append _ (.append _ (.new _))
  have htrim : (Ledger.ofInputs .sha256 [.filled 1, .filled 9]).trim 1 =
      .ok (.ofInputs .sha256 [.filled 1]) := by decide +kernel
  have reachable : redone.Reachable := .append (.filled 3) (.trim full htrim)
  have reachable' : parted.Reachable := .append _ (.append _ (.new _))
  have halgorithm : redone.algorithm = parted.algorithm := by decide +kernel
  have free : redone.algorithm.digest.CollisionFree
      (redone.linkPreimages redone.size ++ parted.linkPreimages parted.size) := by
    decide +kernel
  have avoids : redone.algorithm.digest.AvoidsSentinel
      (redone.linkPreimages redone.size ++ parted.linkPreimages parted.size) := by
    decide +kernel
  have history {n m : Nat} (hn : 1 ≤ n ∧ n ≤ redone.size) (hm : 1 ≤ m ∧ m ≤ parted.size) :=
    rowHash_eq_iff_history reachable reachable' halgorithm hn hm free avoids
  refine ⟨(history ?_ ?_).1.2 ⟨rfl, ?_⟩, fun hhash => ?_, fun hhash => ?_⟩
  · decide +kernel
  · decide +kernel
  · decide +kernel
  · have hinputs := ((history ?_ ?_).1.1 hhash).2
    · exact absurd hinputs (by decide +kernel)
    · decide +kernel
    · decide +kernel
  · have hnumber := ((history ?_ ?_).1.1 hhash).1
    · exact absurd hnumber (by decide)
    · decide +kernel
    · decide +kernel

end Ledger

end SkipChain
