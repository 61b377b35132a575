import SkipChain.Proofs.Ascending
import SkipChain.Proofs.Path.Check
import SkipChain.Report.Authentication
/-!
Authentication misses nothing. A pass only adds rows, and there are no more rows to add than the
paths have entries, so the passes end in a state where every row that is expanded with its
authenticated hash has its links authenticated.
-/
namespace SkipChain

namespace Authenticated

variable {a b c : Authenticated} {p : Path} {n r : Nat} {e : PathEntry} {paths : List Path}

/-- What `a` has, `b` has too. Of a row that is expanded twice `b` may have the other input hash. -/
structure Grows (a b : Authenticated) : Prop where
  hashes : ∀ n hash, a.hashes.get? n = some hash → b.hashes.get? n = some hash
  inputs : a.inputs.keys ⊆ b.inputs.keys

theorem Grows.refl (a : Authenticated) : a.Grows a := ⟨fun _ _ h => h, List.Subset.refl _⟩

theorem Grows.trans (h : a.Grows b) (h' : b.Grows c) : a.Grows c :=
  ⟨fun n hash hget => h'.hashes n hash (h.hashes n hash hget), List.Subset.trans h.inputs h'.inputs⟩

theorem Grows.hashes_keys (h : a.Grows b) : a.hashes.keys ⊆ b.hashes.keys := by
  intro n hn
  obtain ⟨hash, hget⟩ := NatMap.mem_keys.1 hn
  exact NatMap.mem_keys.2 ⟨hash, h.hashes n hash hget⟩

theorem Grows.hashes_size (h : a.Grows b) : a.hashes.size ≤ b.hashes.size := by
  have hle := NatMap.size_le_of_keys_subset h.hashes_keys
  rwa [NatMap.length_keys] at hle

theorem Grows.inputs_size (h : a.Grows b) : a.inputs.size ≤ b.inputs.size := by
  have hle := NatMap.size_le_of_keys_subset h.inputs
  rwa [NatMap.length_keys] at hle

theorem Grows.size_le (h : a.Grows b) : a.size ≤ b.size :=
  Nat.add_le_add h.hashes_size h.inputs_size

theorem Grows.get?_of_size_eq (h : a.Grows b) (hsize : b.size = a.size) {hash : Digest}
    (hget : b.hashes.get? n = some hash) : a.hashes.get? n = some hash := by
  have hhashes := h.hashes_size
  have hinputs := h.inputs_size
  have hkeys := NatMap.keys_subset_of_size_le h.hashes_keys (by unfold size at hsize; omega)
  obtain ⟨before, hbefore⟩ := NatMap.mem_keys.1 (hkeys (NatMap.mem_keys.2 ⟨hash, hget⟩))
  rw [hbefore, ← h.hashes n before hbefore, hget]

theorem grows_foldl {β : Type} {f : Authenticated → β → Authenticated}
    (hf : ∀ (a : Authenticated) x, a.Grows (f a x)) (xs : List β) (a : Authenticated) :
    a.Grows (xs.foldl f a) :=
  List.foldlRecOn xs f (.refl a) fun b hb x _ => hb.trans (hf b x)

theorem exists_turn {β : Type} {f : Authenticated → β → Authenticated}
    (hf : ∀ (a : Authenticated) x, a.Grows (f a x)) {xs : List β} {x : β} (hx : x ∈ xs)
    (a : Authenticated) : ∃ c, a.Grows c ∧ (f c x).Grows (xs.foldl f a) := by
  obtain ⟨before, after, rfl⟩ := List.append_of_mem hx
  refine ⟨before.foldl f a, grows_foldl hf before a, ?_⟩
  rw [List.foldl_append, List.foldl_cons]
  exact grows_foldl hf after _

theorem insert_hash_grows (hash : Digest) (hnew : a.hashes.get? n = none) :
    a.Grows { a with hashes := a.hashes.insert n hash } := by
  refine ⟨fun m found hget => ?_, List.Subset.refl _⟩
  have hother : m ≠ n := by
    rintro rfl
    rw [hnew] at hget
    cases hget
  rw [NatMap.get?_insert, if_neg hother, hget]

theorem learnHash_grows (p : Path) (a : Authenticated) (n : Nat) : a.Grows (learnHash p a n) :=
  learnHash_induct (.refl a) fun hash _ hnew => insert_hash_grows hash hnew

theorem learnHash_contains (h : p.contains n) : (learnHash p a n).hashes.contains n := by
  obtain ⟨e, he⟩ := Path.contains_iff.1 h
  unfold learnHash
  split
  · next hold => exact hold.resolve_left (Path.entry_bounds he).1
  · rw [Path.hash?_of_entry he]
    exact NatMap.contains_iff.2 ⟨e.hash, by rw [NatMap.get?_insert, if_pos rfl]⟩

theorem insert_input_grows (a : Authenticated) (n : Nat) (input : Digest) :
    a.Grows { a with inputs := a.inputs.insert n input } := by
  refine ⟨fun _ _ h => h, fun m hm => ?_⟩
  obtain ⟨found, hget⟩ := NatMap.mem_keys.1 hm
  by_cases hmn : m = n
  · exact NatMap.mem_keys.2 ⟨input, by rw [NatMap.get?_insert, if_pos hmn]⟩
  · exact NatMap.mem_keys.2 ⟨found, by rw [NatMap.get?_insert, if_neg hmn, hget]⟩

theorem learnEntry_grows (p : Path) (a : Authenticated) (n : Nat) (e : PathEntry) :
    a.Grows (learnEntry p a n e) := by
  refine learnEntry_induct (.refl a) fun input _ _ => ⟨insert_input_grows a n input, ?_⟩
  intro b r hash _ _ hnew hb
  exact hb.trans (insert_hash_grows hash hnew)

theorem learnPath_grows (a : Authenticated) (p : Path) : a.Grows (learnPath a p) :=
  grows_foldl (fun a (x : Nat × PathEntry) => learnEntry_grows p a x.1 x.2) _ a

theorem learnAll_grows (paths : List Path) (fuel : Nat) (a : Authenticated) :
    a.Grows (learnAll paths fuel a) :=
  learnAll_induct fuel (.refl a) fun p _ n e _ b hb => hb.trans (learnEntry_grows p b n e)

structure Settled (p : Path) (a : Authenticated) (n : Nat) : Prop where
  input : n ∈ a.inputs.keys
  links : ∀ r ∈ Skip.references n, p.contains r → a.hashes.contains r

theorem Settled.grows (h : a.Settled p n) (hgrows : a.Grows b) : b.Settled p n := by
  refine ⟨hgrows.inputs h.input, fun r hr hcontains => ?_⟩
  obtain ⟨hash, hget⟩ := NatMap.contains_iff.1 (h.links r hr hcontains)
  exact NatMap.contains_iff.2 ⟨hash, hgrows.hashes r hash hget⟩

theorem learnEntry_settled (hexpanded : e.isExpanded) (hknown : a.hashes.get? n = some e.hash) :
    (learnEntry p a n e).Settled p n := by
  obtain ⟨input, hinput⟩ := Option.isSome_iff_exists.1 hexpanded
  unfold learnEntry
  simp only [hinput, hknown, if_true]
  refine ⟨(grows_foldl (learnHash_grows p) _ _).inputs ?_, fun r hr hcontains => ?_⟩
  · exact NatMap.mem_keys.2 ⟨input, by rw [NatMap.get?_insert, if_pos rfl]⟩
  · obtain ⟨c, _, hafter⟩ := exists_turn (learnHash_grows p) hr
      { a with inputs := a.inputs.insert n input }
    obtain ⟨hash, hget⟩ := NatMap.contains_iff.1 (learnHash_contains (a := c) hcontains)
    exact NatMap.contains_iff.2 ⟨hash, hafter.hashes r hash hget⟩

def Closed (paths : List Path) (a : Authenticated) : Prop :=
  ∀ p ∈ paths, ∀ n e, p.entry? n = some e → e.isExpanded → a.hashes.get? n = some e.hash →
    a.Settled p n

def Expands (a : Authenticated) (p : Path) (n : Nat) (input : Digest) : Prop :=
  ∃ e, p.entry? n = some e ∧ e.input = some input ∧ a.hashes.get? n = some e.hash

theorem Expands.grows {input : Digest} (h : a.Expands p n input) (hgrows : a.Grows b) :
    b.Expands p n input := by
  obtain ⟨e, he, hinput, hknown⟩ := h
  exact ⟨e, he, hinput, hgrows.hashes n e.hash hknown⟩

theorem Expands.known {input : Digest} (h : a.Expands p n input) : a.hashes.contains n := by
  obtain ⟨e, -, -, hknown⟩ := h
  exact NatMap.contains_iff.2 ⟨e.hash, hknown⟩

theorem exists_expands (hexpanded : p.isExpanded n) (hhash : p.hash? n = a.hashes.get? n) :
    ∃ input, a.Expands p n input := by
  obtain ⟨e, input, he, hinput⟩ := Path.isExpanded_iff.1 hexpanded
  exact ⟨input, e, he, hinput, hhash.symm.trans (Path.hash?_of_entry he)⟩

theorem Expands.settled {input : Digest} (h : a.Expands p n input) (hp : p ∈ paths)
    (closed : a.Closed paths) : a.Settled p n := by
  obtain ⟨e, he, hinput, hknown⟩ := h
  exact closed p hp n e he (Option.isSome_iff_exists.2 ⟨input, hinput⟩) hknown

/-- A pass that adds nothing has found every known row settled: the row was known before the pass,
so it was known when its entry had its turn. -/
theorem closed_of_idle (h : (paths.foldl learnPath a).size = a.size) :
    (paths.foldl learnPath a).Closed paths := by
  intro p hp n e he hexpanded hknown
  have hbefore := (grows_foldl learnPath_grows paths a).get?_of_size_eq h hknown
  obtain ⟨c, hac, hpath⟩ := exists_turn learnPath_grows hp a
  have hmem : (n, e) ∈ p.entries.toList.reverse := List.mem_reverse.2 (NatMap.mem_toList_iff.2 he)
  obtain ⟨d, hcd, hentry⟩ :=
    exists_turn (fun a (x : Nat × PathEntry) => learnEntry_grows p a x.1 x.2) hmem c
  have hturn := hcd.hashes n e.hash (hac.hashes n e.hash hbefore)
  exact (learnEntry_settled hexpanded hturn).grows (hentry.trans hpath)

variable {root : Option (Nat × Digest)}

structure Within (root : Option (Nat × Digest)) (paths : List Path) (a : Authenticated) :
    Prop where
  hashes : a.hashes.keys ⊆ root.toList.map Prod.fst ++ paths.flatMap fun p => p.entries.keys
  inputs : a.inputs.keys ⊆ paths.flatMap fun p => p.entries.keys

theorem Within.start : (start root).Within root paths := by
  refine ⟨fun n hn => List.mem_append_left _ ?_, List.nil_subset _⟩
  obtain ⟨hash, hget⟩ := NatMap.mem_keys.1 hn
  rw [get?_start.1 hget]
  exact List.mem_cons_self

theorem mem_path_keys (hp : p ∈ paths) (he : p.entry? n = some e) :
    n ∈ paths.flatMap fun p => p.entries.keys :=
  List.mem_flatMap.2 ⟨p, hp, NatMap.mem_keys.2 ⟨e, he⟩⟩

theorem Within.learnEntry (h : a.Within root paths) (hp : p ∈ paths) (he : p.entry? n = some e) :
    (learnEntry p a n e).Within root paths := by
  refine learnEntry_induct h fun input _ _ => ⟨⟨h.hashes, fun m hm => ?_⟩, ?_⟩
  · obtain ⟨found, hget⟩ := NatMap.mem_keys.1 hm
    rw [NatMap.get?_insert] at hget
    split at hget
    · next hmn => exact hmn ▸ mem_path_keys hp he
    · exact h.inputs (NatMap.mem_keys.2 ⟨found, hget⟩)
  · intro b r hash _ hhash _ hb
    obtain ⟨e', he', _⟩ := Path.hash?_eq_some_iff.1 hhash
    refine ⟨fun m hm => ?_, hb.inputs⟩
    obtain ⟨found, hget⟩ := NatMap.mem_keys.1 hm
    rw [NatMap.get?_insert] at hget
    split at hget
    · next hmr => exact List.mem_append_right _ (hmr ▸ mem_path_keys hp he')
    · exact hb.hashes (NatMap.mem_keys.2 ⟨found, hget⟩)

theorem length_path_keys (paths : List Path) (n : Nat) :
    paths.foldl (fun n p => n + p.size) n =
      n + (paths.flatMap fun p => p.entries.keys).length := by
  induction paths generalizing n with
  | nil => rfl
  | cons p paths ih =>
    rw [List.foldl_cons, ih, List.flatMap_cons, List.length_append, NatMap.length_keys]
    exact Nat.add_assoc ..

theorem Within.size_lt_passes (h : a.Within root paths) :
    a.size < root.toList.length + passes paths := by
  have hhashes := NatMap.size_le_of_keys_subset h.hashes
  have hinputs := NatMap.size_le_of_keys_subset h.inputs
  rw [List.length_append, List.length_map] at hhashes
  rw [passes, length_path_keys, size]
  omega

theorem learnAll_closed (fuel : Nat) (h : a.Within root paths)
    (henough : root.toList.length + passes paths ≤ a.size + fuel) :
    (learnAll paths fuel a).Closed paths := by
  induction fuel generalizing a with
  | zero =>
    have hsize := h.size_lt_passes
    omega
  | succ fuel ih =>
    have hgrows := (grows_foldl learnPath_grows paths a).size_le
    rw [learnAll]
    split
    · next hidle => exact closed_of_idle hidle
    · next hmore =>
      refine ih (pass_induct h fun p hp n e he b hb => hb.learnEntry hp he) ?_
      omega

theorem size_start (root : Option (Nat × Digest)) : (start root).size = root.toList.length := by
  cases root <;> rfl

theorem ofPaths_closed (root : Option (Nat × Digest)) (paths : List Path) :
    (ofPaths root paths).Closed paths :=
  learnAll_closed _ .start (by rw [size_start])

theorem ofPaths_root {hash : Digest} (hroot : root = some (n, hash)) :
    (ofPaths root paths).hashes.get? n = some hash :=
  (learnAll_grows paths _ _).hashes n hash (get?_start.2 hroot)

end Authenticated

end SkipChain
