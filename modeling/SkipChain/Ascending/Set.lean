/-!
Finite sets of natural numbers as strictly ascending lists, so that equal sets are equal values.
-/
namespace SkipChain

structure NatSet where
  toList : List Nat
  ascending : toList.Pairwise (· < ·)
  deriving DecidableEq

namespace NatSet

def insertInto (n : Nat) : List Nat → List Nat
  | [] => [n]
  | m :: rest =>
    if n < m then n :: m :: rest else if n = m then m :: rest else m :: insertInto n rest

theorem mem_insertInto {n k : Nat} {ms : List Nat} : k ∈ insertInto n ms ↔ k = n ∨ k ∈ ms := by
  induction ms with
  | nil => simp [insertInto]
  | cons m rest ih =>
    unfold insertInto
    split
    · simp
    · split
      · next h => simp [h]
      · simp only [List.mem_cons, ih]
        exact or_left_comm

theorem ascending_insertInto (n : Nat) {ms : List Nat} (h : ms.Pairwise (· < ·)) :
    (insertInto n ms).Pairwise (· < ·) := by
  induction ms with
  | nil => simp [insertInto]
  | cons m rest ih =>
    have hrest := List.pairwise_cons.1 h
    unfold insertInto
    split
    · next hlt =>
      refine List.pairwise_cons.2 ⟨fun k hk => ?_, h⟩
      rcases List.mem_cons.1 hk with rfl | hk
      · exact hlt
      · exact Nat.lt_trans hlt (hrest.1 k hk)
    · split
      · exact h
      · next hge hne =>
        refine List.pairwise_cons.2 ⟨fun k hk => ?_, ih hrest.2⟩
        rcases mem_insertInto.1 hk with rfl | hk
        · omega
        · exact hrest.1 k hk

def empty : NatSet := ⟨[], .nil⟩

instance : Inhabited NatSet := ⟨empty⟩

def insert (s : NatSet) (n : Nat) : NatSet := ⟨insertInto n s.toList, ascending_insertInto n s.ascending⟩

def ofList (ns : List Nat) : NatSet := ns.foldl insert empty

instance : Membership Nat NatSet := ⟨fun s n => n ∈ s.toList⟩

instance (n : Nat) (s : NatSet) : Decidable (n ∈ s) := inferInstanceAs (Decidable (n ∈ s.toList))

def size (s : NatSet) : Nat := s.toList.length

theorem mem_def {n : Nat} {s : NatSet} : n ∈ s ↔ n ∈ s.toList := Iff.rfl

@[simp] theorem mem_insert {n k : Nat} {s : NatSet} : k ∈ s.insert n ↔ k = n ∨ k ∈ s :=
  mem_insertInto

theorem mem_foldl_insert {k : Nat} {ns : List Nat} {s : NatSet} :
    k ∈ ns.foldl insert s ↔ k ∈ ns ∨ k ∈ s := by
  induction ns generalizing s with
  | nil => simp
  | cons n ns ih => simp [ih, or_left_comm, or_assoc]

@[simp] theorem mem_ofList {k : Nat} {ns : List Nat} : k ∈ ofList ns ↔ k ∈ ns := by
  rw [ofList, mem_foldl_insert]
  exact or_iff_left List.not_mem_nil

end NatSet

end SkipChain
