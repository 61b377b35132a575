import Mathlib.Data.List.Dedup
import Mathlib.Data.List.Perm.Subperm
import Mathlib.Data.List.Sort
import SkipChain.Ascending.Map
import SkipChain.Ascending.Set
/-!
Ascending sets and maps are settled by what is in them, what is new to one is put among the rest,
and each key counts once.
-/
namespace SkipChain

theorem lookup_filter_ne {κ α : Type} [BEq κ] [LawfulBEq κ] [DecidableEq κ] (j k : κ)
    (ps : List (κ × α)) :
    (ps.filter (·.1 ≠ k)).lookup j = if j = k then none else ps.lookup j := by
  induction ps with
  | nil => simp
  | cons p rest ih =>
    by_cases hpk : p.1 = k
    · have hdropped : (p :: rest).filter (·.1 ≠ k) = rest.filter (·.1 ≠ k) := by simp [hpk]
      rw [hdropped, ih, lookup_pair, hpk]
      split <;> rfl
    · have hkept : (p :: rest).filter (·.1 ≠ k) = p :: rest.filter (·.1 ≠ k) := by simp [hpk]
      rw [hkept, lookup_pair, lookup_pair, ih]
      by_cases hjp : j = p.1
      · simp [hjp, hpk]
      · simp [hjp]

theorem lookup_map {κ α β : Type} [BEq κ] [LawfulBEq κ] [DecidableEq κ] (f : α → β) (k : κ)
    (ps : List (κ × α)) :
    (ps.map fun p => (p.1, f p.2)).lookup k = (ps.lookup k).map f := by
  induction ps with
  | nil => rfl
  | cons p rest ih =>
    rw [List.map_cons, lookup_pair, lookup_pair, ih]
    split <;> rfl

theorem lookup_eq_none_iff {κ α : Type} [BEq κ] [LawfulBEq κ] {k : κ} {ps : List (κ × α)} :
    ps.lookup k = none ↔ k ∉ ps.map Prod.fst := by
  rw [List.lookup_eq_none_iff, List.mem_map]
  constructor
  · rintro h ⟨p, hp, rfl⟩
    exact absurd (h p hp) (by simp)
  · intro h p hp
    exact bne_iff_ne.2 fun hkey => h ⟨p, hp, hkey.symm⟩

theorem mem_of_lookup {κ α : Type} [BEq κ] [LawfulBEq κ] {k : κ} {a : α} {ps : List (κ × α)}
    (h : ps.lookup k = some a) : (k, a) ∈ ps := by
  obtain ⟨before, after, rfl, -⟩ := List.lookup_eq_some_iff.1 h
  simp

theorem NatSet.ext_mem {s t : NatSet} (h : ∀ n, n ∈ s ↔ n ∈ t) : s = t := by
  have hlists : s.toList = t.toList := s.ascending.eq_of_mem_iff t.ascending h
  cases s
  cases t
  cases hlists
  rfl

theorem NatSet.ofList_toList (s : NatSet) : ofList s.toList = s :=
  ext_mem fun _ => mem_ofList

theorem NatSet.toList_ofList (ns : List Nat) : (ofList ns).toList = ns.mergeSort.dedup := by
  have hsorted : ns.mergeSort.dedup.Pairwise (· ≤ ·) :=
    (List.pairwise_mergeSort' (· ≤ ·) ns).sublist (List.dedup_sublist _)
  have hascending : ns.mergeSort.dedup.Pairwise (· < ·) :=
    (hsorted.and (List.nodup_dedup _)).imp fun h => Nat.lt_of_le_of_ne h.1 h.2
  apply (ofList ns).ascending.eq_of_mem_iff hascending
  intro n
  rw [List.mem_dedup, List.mem_mergeSort]
  exact mem_ofList

theorem NatMap.ext_get? {α : Type} {m m' : NatMap α} (h : ∀ n, m.get? n = m'.get? n) :
    m = m' := by
  let before : Nat × α → Nat × α → Prop := fun p q => p.1 < q.1
  have irrefl : Std.Irrefl before := ⟨fun p => Nat.lt_irrefl p.1⟩
  have antisymm : Std.Antisymm before := ⟨fun p q hpq hqp => absurd hqp (Nat.lt_asymm hpq)⟩
  have hlists : m.toList = m'.toList := by
    apply m.ascending.eq_of_mem_iff (r := before) m'.ascending
    rintro ⟨n, a⟩
    rw [mem_toList_iff, mem_toList_iff, h]
  cases m
  cases m'
  cases hlists
  rfl

theorem NatMap.get?_erase {α : Type} (m : NatMap α) (k j : Nat) :
    (m.erase k).get? j = if j = k then none else m.get? j := by
  apply Option.ext
  intro a
  rw [← mem_toList_iff, erase, filterKeys, List.mem_filter, mem_toList_iff]
  by_cases hjk : j = k <;> simp [hjk]

theorem NatMap.findSome?_eq {α β : Type} {m : NatMap α} {f : Nat × α → Option β} {k : Nat} {a : α}
    {b : β} (ha : m.get? k = some a) (hb : f (k, a) = some b)
    (hbelow : ∀ j c, j < k → m.get? j = some c → f (j, c) = none) :
    m.toList.findSome? f = some b := by
  obtain ⟨before, after, hsplit⟩ := List.append_of_mem (mem_toList_iff.2 ha)
  refine List.findSome?_eq_some_iff.2 ⟨before, (k, a), after, hsplit, hb, fun p hp => ?_⟩
  have hascending := m.ascending
  rw [hsplit] at hascending
  have hlt := (List.pairwise_append.1 hascending).2.2 p hp (k, a) List.mem_cons_self
  exact hbelow p.1 p.2 hlt (mem_toList_iff.1 (hsplit ▸ List.mem_append_left _ hp))

theorem NatMap.get?_insertAll {α : Type} {ps : List (Nat × α)}
    (h : ps.Pairwise fun p q => p.1 < q.1) (m : NatMap α) (n : Nat) :
    (m.insertAll ps).get? n = (ps.lookup n).or (m.get? n) := by
  induction ps generalizing m with
  | nil => rfl
  | cons p ps ih =>
    have hrest := List.pairwise_cons.1 h
    change ((m.insert p.1 p.2).insertAll ps).get? n = _
    rw [ih hrest.2, get?_insert, lookup_pair]
    by_cases hn : n = p.1
    · have habsent : ps.lookup n = none := by
        rw [List.lookup_eq_none_iff]
        intro q hq
        exact bne_iff_ne.2 (hn ▸ Nat.ne_of_lt (hrest.1 q hq))
      rw [if_pos hn, if_pos hn, habsent]
      rfl
    · simp [hn]

theorem NatMap.ofList_toList {α : Type} (m : NatMap α) : ofList m.toList = m := by
  apply ext_get?
  intro n
  rw [ofList, get?_insertAll m.ascending, get?_empty, Option.or_none]
  rfl

theorem NatSet.toList_insert_perm {s : NatSet} {n : Nat} (h : n ∉ s) :
    (s.insert n).toList.Perm (n :: s.toList) := by
  have hnew : n ∉ s.toList := h
  change (insertInto n s.toList).Perm (n :: s.toList)
  generalize s.toList = ms at hnew
  induction ms with
  | nil => exact .refl _
  | cons m rest ih =>
    rw [List.mem_cons, not_or] at hnew
    rw [insertInto, if_neg hnew.1]
    split
    · exact .refl _
    · exact ((ih hnew.2).cons m).trans (.swap n m rest)

theorem NatSet.size_insert {s : NatSet} {n : Nat} (h : n ∉ s) : (s.insert n).size = s.size + 1 :=
  (toList_insert_perm h).length_eq

theorem NatSet.size_insert_le (s : NatSet) (n : Nat) : (s.insert n).size ≤ s.size + 1 := by
  by_cases h : n ∈ s
  · have hsame : s.insert n = s := ext_mem fun k => by
      rw [mem_insert, or_iff_right_of_imp]
      rintro rfl
      exact h
    rw [hsame]
    exact Nat.le_succ _
  · exact Nat.le_of_eq (size_insert h)

theorem NatSet.size_ofList (ns : List Nat) : (ofList ns).size = ns.dedup.length := by
  rw [size, toList_ofList]
  apply List.Perm.length_eq
  apply (List.perm_ext_iff_of_nodup (List.nodup_dedup _) (List.nodup_dedup _)).2
  intro n
  rw [List.mem_dedup, List.mem_dedup, List.mem_mergeSort]

theorem NatSet.length_flatMap_insert {β : Type} {s : NatSet} {n : Nat} (write : Nat → List β)
    (h : n ∉ s) : ((s.insert n).toList.flatMap write).length =
      (write n).length + (s.toList.flatMap write).length := by
  rw [((toList_insert_perm h).flatMap_right write).length_eq, List.flatMap_cons,
    List.length_append]

theorem NatMap.toList_insert_perm {α : Type} {m : NatMap α} {k : Nat} (a : α) (h : k ∉ m.keys) :
    (m.insert k a).toList.Perm ((k, a) :: m.toList) := by
  have hnew : k ∉ m.toList.map (·.1) := h
  change (insertInto k a m.toList).Perm ((k, a) :: m.toList)
  generalize m.toList = ps at hnew
  induction ps with
  | nil => exact .refl _
  | cons p rest ih =>
    rw [List.map_cons, List.mem_cons, not_or] at hnew
    rw [insertInto, if_neg hnew.1]
    split
    · exact .refl _
    · exact ((ih hnew.2).cons p).trans (.swap (k, a) p rest)

theorem NatMap.size_insert {α : Type} {m : NatMap α} {k : Nat} (a : α) (h : k ∉ m.keys) :
    (m.insert k a).size = m.size + 1 :=
  (toList_insert_perm a h).length_eq

theorem NatMap.length_flatMap_insert {α β : Type} {m : NatMap α} {k : Nat} (a : α)
    (write : Nat × α → List β) (h : k ∉ m.keys) :
    ((m.insert k a).toList.flatMap write).length =
      (write (k, a)).length + (m.toList.flatMap write).length := by
  rw [((toList_insert_perm a h).flatMap_right write).length_eq, List.flatMap_cons,
    List.length_append]

section Keys

variable {α : Type} {m m' : NatMap α}

theorem NatMap.nodup_keys (m : NatMap α) : m.keys.Nodup :=
  List.pairwise_map.2 (m.ascending.imp fun h => Nat.ne_of_lt h)

theorem NatMap.length_keys (m : NatMap α) : m.keys.length = m.size := List.length_map _

theorem NatMap.size_le_of_keys_subset {rows : List Nat} (h : m.keys ⊆ rows) :
    m.size ≤ rows.length := by
  rw [← length_keys]
  exact (List.subperm_of_subset m.nodup_keys h).length_le

theorem NatMap.keys_subset_of_size_le (h : m.keys ⊆ m'.keys) (hsize : m'.size ≤ m.size) :
    m'.keys ⊆ m.keys := by
  rw [← length_keys, ← length_keys] at hsize
  exact ((List.subperm_of_subset m.nodup_keys h).perm_of_length_le hsize).symm.subset

theorem NatMap.mem_keys_insert {k j : Nat} {a : α} :
    j ∈ (m.insert k a).keys ↔ j = k ∨ j ∈ m.keys :=
  key_mem_insertInto

theorem NatMap.size_insert_of_mem {k : Nat} (a : α) (h : k ∈ m.keys) :
    (m.insert k a).size = m.size := by
  have hkeys {j : Nat} : j ∈ (m.insert k a).keys ↔ j ∈ m.keys := by
    rw [mem_keys_insert, or_iff_right_of_imp]
    rintro rfl
    exact h
  apply Nat.le_antisymm
  · rw [← m.length_keys]
    exact size_le_of_keys_subset fun j => hkeys.1
  · rw [← (m.insert k a).length_keys]
    exact size_le_of_keys_subset fun j => hkeys.2

end Keys

end SkipChain
