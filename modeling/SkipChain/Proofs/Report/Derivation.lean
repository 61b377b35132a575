import Mathlib.Logic.Relation
import SkipChain.Proofs.Report.Confluence
import SkipChain.Report.Passes
/-!
What authentication comes to. The passes end, since each but the last learns of a row of some entry;
and then exactly those rows are known that chains of links lead to from the root, where each link is
from a row that some path expands with the row's known hash.
-/
namespace SkipChain

namespace Authenticated

variable {a b : Authenticated} {p : Path} {n : Nat} {paths : List Path}
  {root : Option (Nat × Digest)}

namespace Pass

variable {s t u : Pass} {β : Type} {f : Pass → β → Pass}

structure Advances (s t : Pass) : Prop where
  grows : s.found.Grows t.found
  told : t.learned ↔ s.learned ∨ s.found.size < t.found.size

theorem Advances.refl (s : Pass) : s.Advances s := ⟨.refl _, by simp⟩

theorem Advances.trans (h : s.Advances t) (h' : t.Advances u) : s.Advances u := by
  refine ⟨h.grows.trans h'.grows, ?_⟩
  have hst := h.grows.size_le
  have htu := h'.grows.size_le
  rw [h'.told, h.told, or_assoc]
  exact or_congr_right (by omega)

theorem advances_foldl (hf : ∀ (s : Pass) x, s.Advances (f s x)) (xs : List β) (s : Pass) :
    s.Advances (xs.foldl f s) :=
  List.foldlRecOn xs f (.refl s) fun t ht x _ => ht.trans (hf t x)

theorem found_foldl {g : Authenticated → β → Authenticated}
    (hf : ∀ s x, (f s x).found = g s.found x) (xs : List β) (s : Pass) :
    (xs.foldl f s).found = xs.foldl g s.found :=
  (List.foldl_hom found fun s x => (hf s x).symm).symm

theorem absorbHash_zero (p : Path) (s : Pass) : absorbHash p s 0 = s := by
  rw [absorbHash, Path.hash?_zero]

theorem found_absorbHash (p : Path) (s : Pass) (n : Nat) :
    (absorbHash p s n).found = learnHash p s.found n := by
  by_cases h0 : n = 0
  · rw [h0, absorbHash_zero, learnHash, if_pos (.inl rfl)]
  · unfold absorbHash learnHash
    cases hhash : p.hash? n with
    | none => simp
    | some hash =>
      by_cases hknown : s.found.hashes.contains n
      · simp [hknown]
      · simp [hknown, h0]

theorem absorbHash_advances (p : Path) (s : Pass) (n : Nat) : s.Advances (absorbHash p s n) := by
  unfold absorbHash
  cases p.hash? n with
  | none => exact .refl s
  | some hash =>
    dsimp only
    split
    · exact .refl s
    · next hknown =>
      have hnew : n ∉ s.found.hashes.keys := fun h =>
        hknown (NatMap.contains_iff.2 (NatMap.mem_keys.1 h))
      have hsize := NatMap.size_insert hash hnew
      refine ⟨insert_hash_grows hash (by simpa [NatMap.contains] using hknown), ?_⟩
      simp only [Authenticated.size, hsize, true_iff]
      exact .inr (by omega)

theorem foldl_absorbHash_filter (p : Path) (rows : List Nat) (s : Pass) :
    (rows.filter (· ≠ 0)).foldl (absorbHash p) s = rows.foldl (absorbHash p) s := by
  induction rows generalizing s with
  | nil => rfl
  | cons n rows ih =>
    by_cases h0 : n = 0
    · simp [h0, absorbHash_zero, ← ih]
    · simp [h0, ← ih]

theorem found_absorbEntry (p : Path) (s : Pass) (n : Nat) (e : PathEntry) :
    (absorbEntry p s n e).found = learnEntry p s.found n e := by
  unfold absorbEntry learnEntry
  cases e.input with
  | none => rfl
  | some input =>
    dsimp only
    split
    · rw [foldl_absorbHash_filter, found_foldl (found_absorbHash p)]
    · rfl

theorem absorbInput_advances (s : Pass) (n : Nat) (input : Digest) :
    s.Advances ⟨{ s.found with inputs := s.found.inputs.insert n input },
      s.learned || !s.found.inputs.contains n⟩ := by
  refine ⟨insert_input_grows s.found n input, ?_⟩
  simp only [Authenticated.size, Bool.or_eq_true]
  refine or_congr_right ?_
  have hcontains : s.found.inputs.contains n ↔ n ∈ s.found.inputs.keys :=
    NatMap.contains_iff.trans NatMap.mem_keys.symm
  by_cases hknown : n ∈ s.found.inputs.keys
  · simp [hcontains.2 hknown, NatMap.size_insert_of_mem input hknown]
  · simp [Bool.eq_false_iff.2 (mt hcontains.1 hknown), NatMap.size_insert input hknown]

theorem absorbEntry_advances (p : Path) (s : Pass) (n : Nat) (e : PathEntry) :
    s.Advances (absorbEntry p s n e) := by
  unfold absorbEntry
  cases e.input with
  | none => exact .refl s
  | some input =>
    dsimp only
    split
    · exact (absorbInput_advances s n input).trans (advances_foldl (absorbHash_advances p) _ _)
    · exact .refl s

theorem found_absorb (s : Pass) (p : Path) : (absorb s p).found = learnPath s.found p :=
  found_foldl (fun s (e : Nat × PathEntry) => found_absorbEntry p s e.1 e.2) _ s

theorem found_through (paths : List Path) (a : Authenticated) :
    (through paths a).found = paths.foldl learnPath a :=
  found_foldl found_absorb paths _

theorem learned_through (paths : List Path) (a : Authenticated) :
    (through paths a).learned ↔ a.size < (paths.foldl learnPath a).size := by
  have hpath (s : Pass) (p : Path) : s.Advances (absorb s p) :=
    advances_foldl (fun s (e : Nat × PathEntry) => absorbEntry_advances p s e.1 e.2) _ s
  have hpass := (advances_foldl hpath paths ⟨a, false⟩).told
  rw [← found_through]
  simpa [through] using hpass

end Pass

theorem learnWithin_eq {fuel rounds : Nat} (h : a.Within root paths)
    (henough : root.toList.length + passes paths ≤ a.size + fuel) (hrounds : fuel ≤ rounds) :
    learnWithin paths rounds a = some (learnAll paths fuel a) := by
  induction fuel generalizing rounds a with
  | zero =>
    have hsize := h.size_lt_passes
    omega
  | succ fuel ih =>
    obtain ⟨rounds, rfl⟩ := Nat.exists_eq_add_of_le' (Nat.lt_of_lt_of_le (Nat.succ_pos _) hrounds)
    have hlearned := Pass.learned_through paths a
    have hgrows := (grows_foldl learnPath_grows paths a).size_le
    unfold learnWithin learnAll
    dsimp only
    rw [Pass.found_through]
    by_cases hidle : (paths.foldl learnPath a).size = a.size
    · rw [if_pos hidle, if_neg (by rw [hlearned]; omega)]
    · rw [if_neg hidle, if_pos (by rw [hlearned]; omega)]
      refine ih (pass_induct h fun p hp n e he b hb => hb.learnEntry hp he) ?_ (by omega)
      omega

structure Vouches (a : Authenticated) (p : Path) (m n : Nat) : Prop where
  expands : ∃ input, a.Expands p m input
  link : n ∈ Skip.references m
  recorded : p.contains n

def Derives (a : Authenticated) (paths : List Path) : Nat → Nat → Prop :=
  Relation.ReflTransGen fun m n => ∃ p ∈ paths, a.Vouches p m n

/-- What is authenticated from a root, told without the passes. -/
structure Derived (root : Option (Nat × Digest)) (paths : List Path) (a : Authenticated) :
    Prop where
  trusted : ∀ top hash, root = some (top, hash) → a.hashes.get? top = some hash
  known : ∀ n, a.hashes.contains n ↔ ∃ top hash, root = some (top, hash) ∧ a.Derives paths top n
  /-- The hash of a row other than the root comes from the last link of a chain to it. -/
  hash : ∀ n hash, a.hashes.get? n = some hash → root ≠ some (n, hash) →
    ∃ top start m, root = some (top, start) ∧ a.Derives paths top m ∧
      ∃ p ∈ paths, a.Vouches p m n ∧ p.hash? n = some hash
  inputs : ∀ n, a.inputs.contains n ↔ ∃ p ∈ paths, ∃ input, a.Expands p n input
  /-- The input hash of a row is one that it is expanded with. -/
  input : ∀ n input, a.inputs.get? n = some input → ∃ p ∈ paths, a.Expands p n input

section Chains

variable {root : Nat × Digest}

theorem Traced.derives (h : a.Traced root paths) (hn : a.hashes.contains n) :
    a.Derives paths root.1 n := by
  induction hgap : root.1 - n using Nat.strongRecOn generalizing n with
  | ind gap ih =>
    by_cases hroot : n = root.1
    · rw [hroot]
      exact .refl
    · obtain ⟨hash, hget⟩ := NatMap.contains_iff.1 hn
      obtain ⟨m, input, ⟨hm, hlink, -⟩, p, hp, hexpands, hhash⟩ := h.source n hash hget hroot
      have hlt := Skip.lt_of_mem_references hlink
      have hvouches : a.Vouches p m n := ⟨⟨input, hexpands⟩, hlink, Path.contains_of_hash? hhash⟩
      exact (ih (root.1 - m) (by omega) hexpands.known rfl).tail ⟨p, hp, hvouches⟩

theorem Closed.contains_of_derives (closed : a.Closed paths) {top : Nat}
    (htop : a.hashes.contains top) (h : a.Derives paths top n) : a.hashes.contains n := by
  induction h with
  | refl => exact htop
  | tail _ step _ =>
    obtain ⟨p, hp, ⟨input, hexpands⟩, hlink, hrecorded⟩ := step
    exact (hexpands.settled hp closed).links _ hlink hrecorded

theorem Traced.derived (h : a.Traced root paths) (closed : a.Closed paths) :
    a.Derived (some root) paths where
  trusted top hash hroot := by
    cases hroot
    exact h.known_root
  known n := by
    refine ⟨fun hn => ⟨root.1, root.2, rfl, h.derives hn⟩, ?_⟩
    rintro ⟨top, hash, hroot, hderives⟩
    cases hroot
    exact closed.contains_of_derives (NatMap.contains_iff.2 ⟨_, h.known_root⟩) hderives
  hash n hash hget hne := by
    have hother : n ≠ root.1 := by
      rintro rfl
      rw [h.known_root] at hget
      cases hget
      exact hne rfl
    obtain ⟨m, input, ⟨-, hlink, -⟩, p, hp, hexpands, hhash⟩ := h.source n hash hget hother
    have hvouches : a.Vouches p m n := ⟨⟨input, hexpands⟩, hlink, Path.contains_of_hash? hhash⟩
    exact ⟨root.1, root.2, m, rfl, h.derives hexpands.known, p, hp, hvouches, hhash⟩
  inputs n := by
    constructor
    · intro hn
      obtain ⟨input, hget⟩ := NatMap.contains_iff.1 hn
      obtain ⟨p, hp, hexpands⟩ := h.inputs n input hget
      exact ⟨p, hp, input, hexpands⟩
    · rintro ⟨p, hp, input, hexpands⟩
      exact NatMap.contains_iff.2 (NatMap.mem_keys.1 (hexpands.settled hp closed).input)
  input := h.inputs

theorem derived_nothing : (ofPaths none []).Derived none [] where
  trusted := nofun
  known _ := ⟨nofun, nofun⟩
  hash := nofun
  inputs _ := ⟨nofun, fun ⟨_, hp, _⟩ => nomatch hp⟩
  input := nofun

end Chains

theorem passes_eq (paths : List Path) : passes paths = 2 * (paths.map Path.size).sum + 1 := by
  rw [passes, List.sum_eq_foldl, List.foldl_map]

end Authenticated

namespace Package

theorem eq_nil_of_root? {trusted : Option TrustedRow} {paths : List Path}
    (h : root? trusted paths = none) : paths = [] := by
  cases trusted with
  | some t => cases h
  | none => exact eq_nil_of_highest (Option.map_eq_none_iff.1 h)

/-- For any package, with a trusted row or without, the passes end after at most two for each entry
of the verified paths and one more. What is authenticated then is what links lead to from the root.
-/
theorem authenticated_derived (H : Hash) (trusted : Option TrustedRow) (k : Package) :
    let paths := k.verifiedPaths H trusted
    let root := root? trusted paths
    (∀ rounds, 2 * (paths.map Path.size).sum + 1 ≤ rounds →
      Authenticated.learnWithin paths rounds (.start root) = some (k.authenticated H trusted)) ∧
    (k.authenticated H trusted).Derived root paths := by
  intro paths root
  constructor
  · intro rounds hrounds
    rw [← Authenticated.passes_eq] at hrounds
    exact Authenticated.learnWithin_eq .start (by rw [Authenticated.size_start]) hrounds
  · have links : ∀ p ∈ paths, p.LinksHold H := fun p hp =>
      (checkPath_eq_ok_iff.1 (mem_verifiedPaths.1 hp).2).1
    change (Authenticated.ofPaths root paths).Derived root paths
    cases hroot : root with
    | some start =>
      exact (Authenticated.ofPaths_traced start links).derived (Authenticated.ofPaths_closed _ _)
    | none =>
      rw [eq_nil_of_root? hroot]
      exact Authenticated.derived_nothing

/-- Row 1 comes first among the paths and is known only through the last of them, so its input hash
takes a second pass and the end a third. -/
theorem authenticated_derived_scrambled :
    let trusted : Option TrustedRow := some ⟨2, twiceBooted.hashBelow 2⟩
    let paths := scrambled.verifiedPaths Sha256.hash trusted
    let a := scrambled.authenticated Sha256.hash trusted
    Authenticated.learnWithin paths 2 (.start (root? trusted paths)) = none ∧
      2 * (paths.map Path.size).sum + 1 ≤ 9 ∧
      Authenticated.learnWithin paths 9 (.start (root? trusted paths)) = some a ∧
      a.hashes.contains 1 ∧ a.Derives paths 2 1 := by
  intro trusted paths a
  have evaluated : Authenticated.learnWithin paths 2 (.start (root? trusted paths)) = none ∧
      2 * (paths.map Path.size).sum + 1 ≤ 9 ∧ a.hashes.contains 1 := by
    decide +kernel
  obtain ⟨hunfinished, hbound, hknown⟩ := evaluated
  obtain ⟨hpasses, derived⟩ := authenticated_derived Sha256.hash trusted scrambled
  obtain ⟨top, hash, hroot, hderives⟩ := (derived.known 1).1 hknown
  cases hroot
  exact ⟨hunfinished, hbound, hpasses 9 hbound, hknown, hderives⟩

end Package

end SkipChain
