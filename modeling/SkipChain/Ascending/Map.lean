/-!
Finite maps from natural numbers as lists of pairs with strictly ascending keys, so that equal maps
are equal values.
-/
namespace SkipChain

theorem lookup_pair {κ α : Type} [BEq κ] [LawfulBEq κ] [DecidableEq κ] (j : κ) (p : κ × α)
    (ps : List (κ × α)) :
    (p :: ps).lookup j = if j = p.1 then some p.2 else ps.lookup j := by
  rw [List.lookup_cons]
  by_cases hjp : j = p.1
  · simp [hjp]
  · simp [hjp, beq_false_of_ne hjp]

structure NatMap (α : Type) where
  toList : List (Nat × α)
  ascending : toList.Pairwise fun p q => p.1 < q.1
  deriving DecidableEq

namespace NatMap

variable {α : Type}

/-- Put a pair into an ascending list, in place of the pair with its key if there is one. -/
def insertInto (k : Nat) (a : α) : List (Nat × α) → List (Nat × α)
  | [] => [(k, a)]
  | p :: rest =>
    if k < p.1 then (k, a) :: p :: rest
    else if k = p.1 then (k, a) :: rest
    else p :: insertInto k a rest

theorem key_mem_insertInto {k j : Nat} {a : α} {ps : List (Nat × α)} :
    j ∈ (insertInto k a ps).map (·.1) ↔ j = k ∨ j ∈ ps.map (·.1) := by
  induction ps with
  | nil => simp [insertInto]
  | cons p rest ih =>
    unfold insertInto
    split
    · simp
    · split
      · next h => simp [h]
      · simp only [List.map_cons, List.mem_cons, ih]
        exact or_left_comm

theorem ascending_insertInto (k : Nat) (a : α) {ps : List (Nat × α)}
    (h : ps.Pairwise fun p q => p.1 < q.1) :
    (insertInto k a ps).Pairwise fun p q => p.1 < q.1 := by
  induction ps with
  | nil => simp [insertInto]
  | cons p rest ih =>
    have hrest := List.pairwise_cons.1 h
    unfold insertInto
    split
    · next hlt =>
      refine List.pairwise_cons.2 ⟨fun q hq => ?_, h⟩
      rcases List.mem_cons.1 hq with rfl | hq
      · exact hlt
      · exact Nat.lt_trans hlt (hrest.1 q hq)
    · split
      · next heq => exact List.pairwise_cons.2 ⟨fun q hq => heq ▸ hrest.1 q hq, hrest.2⟩
      · next hge hne =>
        refine List.pairwise_cons.2 ⟨fun q hq => ?_, ih hrest.2⟩
        rcases key_mem_insertInto.1 (List.mem_map_of_mem hq) with hkey | hkey
        · omega
        · obtain ⟨q', hq', heq⟩ := List.mem_map.1 hkey
          exact heq ▸ hrest.1 q' hq'

def empty : NatMap α := ⟨[], .nil⟩

instance : Inhabited (NatMap α) := ⟨empty⟩

def insert (m : NatMap α) (k : Nat) (a : α) : NatMap α :=
  ⟨insertInto k a m.toList, ascending_insertInto k a m.ascending⟩

/-- The map with the pairs of a list; of two pairs with one key the later one counts. -/
def insertAll (m : NatMap α) (ps : List (Nat × α)) : NatMap α :=
  ps.foldl (fun m p => m.insert p.1 p.2) m

def ofList (ps : List (Nat × α)) : NatMap α := empty.insertAll ps

def filterKeys (m : NatMap α) (keep : Nat → Bool) : NatMap α :=
  ⟨m.toList.filter fun p => keep p.1, m.ascending.filter _⟩

def erase (m : NatMap α) (k : Nat) : NatMap α := m.filterKeys (· != k)

def get? (m : NatMap α) (k : Nat) : Option α := m.toList.lookup k

def contains (m : NatMap α) (k : Nat) : Bool := (m.get? k).isSome

def keys (m : NatMap α) : List Nat := m.toList.map (·.1)

def size (m : NatMap α) : Nat := m.toList.length

def isEmpty (m : NatMap α) : Bool := m.toList.isEmpty

theorem lookup_insertInto (k j : Nat) (a : α) (ps : List (Nat × α)) :
    (insertInto k a ps).lookup j = if j = k then some a else ps.lookup j := by
  induction ps with
  | nil => simp [insertInto, lookup_pair]
  | cons p rest ih =>
    unfold insertInto
    split
    · rw [lookup_pair]
    · split
      · next heq =>
        rw [lookup_pair, lookup_pair, ← heq]
        split <;> rfl
      · next hne =>
        rw [lookup_pair, lookup_pair, ih]
        by_cases hjp : j = p.1
        · simp [hjp, Ne.symm hne]
        · simp [hjp]

@[simp] theorem get?_empty (k : Nat) : (empty : NatMap α).get? k = none := rfl

theorem get?_insert (m : NatMap α) (k j : Nat) (a : α) :
    (m.insert k a).get? j = if j = k then some a else m.get? j :=
  lookup_insertInto k j a m.toList

theorem mem_toList_iff {m : NatMap α} {k : Nat} {a : α} :
    (k, a) ∈ m.toList ↔ m.get? k = some a := by
  obtain ⟨ps, hps⟩ := m
  change (k, a) ∈ ps ↔ ps.lookup k = some a
  induction ps with
  | nil => simp
  | cons p rest ih =>
    have hrest := List.pairwise_cons.1 hps
    rw [List.mem_cons, lookup_pair, Prod.ext_iff]
    by_cases hkp : k = p.1
    · -- a second pair with this key would be out of order
      have habsent : (k, a) ∉ rest := fun hmem => by
        have := hrest.1 _ hmem
        omega
      rw [if_pos hkp]
      constructor
      · rintro (⟨_, rfl⟩ | hmem)
        · rfl
        · exact absurd hmem habsent
      · intro h
        exact .inl ⟨hkp, (Option.some.inj h).symm⟩
    · rw [if_neg hkp, ← ih hrest.2]
      simp [hkp]

theorem contains_iff {m : NatMap α} {k : Nat} : m.contains k ↔ ∃ a, m.get? k = some a :=
  Option.isSome_iff_exists

theorem mem_keys {m : NatMap α} {k : Nat} : k ∈ m.keys ↔ ∃ a, m.get? k = some a := by
  simp only [keys, List.mem_map, Prod.exists, mem_toList_iff, exists_and_right, exists_eq_right]

end NatMap

end SkipChain
