import SkipChain.Cache.Call
import SkipChain.Proofs.Ascending
/-!
What calls do to the places of a cache. A key that is asked for comes to the front of the others
that keep their places, and no call changes the value of another key that keeps its place.
-/
namespace SkipChain.Cache

variable {κ α ε : Type} [DecidableEq κ] {c : Cache κ α} {key other : κ} {value : α}

section Lookup

variable {slots : List (κ × Option α)}

theorem lookup_dropLast (h : key ∈ slots.dropLast.map Prod.fst) :
    slots.dropLast.lookup key = slots.lookup key := by
  rcases List.eq_nil_or_concat slots with rfl | ⟨kept, last, rfl⟩
  · rfl
  · rw [List.concat_eq_append, List.dropLast_concat] at h ⊢
    rw [List.lookup_append, Option.or_of_isSome]
    rw [Option.isSome_iff_ne_none, Ne, lookup_eq_none_iff]
    exact not_not_intro h

theorem lookup_store (slots : List (κ × Option α)) :
    (slots.map fun s => if s.1 = key then (key, some value) else s).lookup other =
      if other = key then (slots.lookup key).map fun _ => some value else slots.lookup other := by
  induction slots with
  | nil => simp
  | cons slot slots ih =>
    rw [List.map_cons, lookup_pair, lookup_pair, lookup_pair, ih]
    by_cases hother : other = key
    · by_cases hslot : slot.1 = key
      · simp [hother, hslot]
      · simp [hother, hslot, Ne.symm hslot]
    · by_cases hslot : slot.1 = key
      · simp [hother, hslot]
      · simp [hother, hslot]

end Lookup

omit [DecidableEq κ] in
theorem length_keys (c : Cache κ α) : c.keys.length = c.size := List.length_map _

theorem peek?_eq_none (h : key ∉ c.keys) : c.peek? key = none := by
  rw [peek?, lookup_eq_none_iff.2 h]
  rfl

def others (c : Cache κ α) (key : κ) : List κ :=
  if key ∈ c.keys then c.keys.filter (· ≠ key)
  else if c.size < c.capacity then c.keys else c.keys.dropLast

theorem others_sublist (c : Cache κ α) (key : κ) : (c.others key).Sublist c.keys := by
  unfold others
  split
  · exact List.filter_sublist
  · split
    · exact .refl _
    · exact List.dropLast_sublist _

theorem not_mem_others (c : Cache κ α) (key : κ) : key ∉ c.others key := by
  by_cases h : key ∈ c.keys
  · simp [others, h]
  · exact fun hmem => h ((c.others_sublist key).mem hmem)

theorem length_others_lt (h : c.size ≤ c.capacity) : (c.others key).length < c.capacity := by
  have hlength := c.length_keys
  have hpos := c.capacity_pos
  unfold others
  split
  · next hmem =>
    have hfewer : (c.keys.filter (· ≠ key)).length < c.keys.length :=
      List.length_filter_lt_length_iff_exists.2 ⟨key, hmem, by simp⟩
    omega
  · split
    · omega
    · rw [List.length_dropLast]
      omega

omit [DecidableEq κ] in
theorem not_mem_dropLast_iff {keys : List κ} {age : κ → Nat}
    (ordered : keys.Pairwise fun key other => age other < age key) (h : key ∈ keys) :
    key ∉ keys.dropLast ↔ ∀ other ∈ keys, other ≠ key → age key < age other := by
  rcases List.eq_nil_or_concat keys with rfl | ⟨kept, last, rfl⟩
  · cases h
  rw [List.concat_eq_append] at ordered h ⊢
  obtain ⟨-, -, hlast⟩ := List.pairwise_append.1 ordered
  rw [List.dropLast_concat]
  constructor
  · intro hkey other hother hne
    obtain rfl : key = last := by simpa [hkey] using h
    have hkept : other ∈ kept := by simpa [hne] using hother
    exact hlast other hkept _ List.mem_cons_self
  · intro holdest hkept
    have hage := hlast key hkept last List.mem_cons_self
    have hne : last ≠ key := fun heq => absurd hage (heq ▸ Nat.lt_irrefl _)
    exact Nat.lt_asymm hage (holdest last (by simp) hne)

theorem not_mem_cons_others_iff {age : κ → Nat}
    (ordered : c.keys.Pairwise fun key other => age other < age key) (hsize : c.size ≤ c.capacity)
    (h : key ∈ c.keys) :
    key ∉ other :: c.others other ↔ other ∉ c.keys ∧ c.size = c.capacity ∧
      ∀ third ∈ c.keys, third ≠ key → age key < age third := by
  rw [others]
  by_cases hother : other ∈ c.keys
  · rw [if_pos hother]
    refine iff_of_false (fun hkey => hkey ?_) fun hnew => hnew.1 hother
    by_cases heq : key = other <;> simp [heq, h]
  · have hne : key ≠ other := fun heq => hother (heq ▸ h)
    rw [if_neg hother]
    split
    · next hroom =>
      refine iff_of_false (fun hkey => hkey (List.mem_cons_of_mem _ h)) fun hfull => ?_
      exact Nat.ne_of_lt hroom hfull.2.1
    · next hfull =>
      have hfull : c.size = c.capacity := Nat.le_antisymm hsize (Nat.le_of_not_lt hfull)
      rw [← not_mem_dropLast_iff ordered h, List.mem_cons, not_or]
      simp [hne, hother, hfull]

theorem keys_touch (c : Cache κ α) (key : κ) : (c.touch key).keys = key :: c.others key := by
  unfold touch others
  cases hfound : c.slots.lookup key with
  | some found =>
    have hmem : key ∈ c.keys := by
      by_contra hmem
      rw [lookup_eq_none_iff.2 hmem] at hfound
      cases hfound
    rw [if_pos hmem]
    simp only [keys, List.map_cons, List.filter_map]
    rfl
  | none =>
    have hmem : key ∉ c.keys := lookup_eq_none_iff.1 hfound
    rw [if_neg hmem]
    simp only [keys, List.map_cons]
    split
    · rfl
    · rw [List.map_dropLast]

theorem peek?_touch (h : other ∈ (c.touch key).keys) :
    (c.touch key).peek? other = c.peek? other := by
  unfold touch at h ⊢
  cases hfound : c.slots.lookup key with
  | some found =>
    simp only [peek?, lookup_pair, lookup_filter_ne]
    by_cases hother : other = key
    · rw [if_pos hother, hother, hfound]
    · rw [if_neg hother, if_neg hother]
  | none =>
    simp only [hfound, keys, List.map_cons] at h
    simp only [peek?, lookup_pair]
    by_cases hother : other = key
    · rw [if_pos hother, hother, hfound]
      rfl
    · rw [if_neg hother]
      have hkept := List.mem_of_ne_of_mem hother h
      split at hkept
      · next hroom => rw [if_pos hroom]
      · next hfull => rw [if_neg hfull, lookup_dropLast hkept]

theorem keys_store (c : Cache κ α) (key : κ) (value : α) : (c.store key value).keys = c.keys := by
  simp only [keys, store, List.map_map]
  congr 1
  funext slot
  by_cases hslot : slot.1 = key <;> simp [hslot]

theorem peek?_store (h : key ∈ c.keys) :
    (c.store key value).peek? other = if other = key then some value else c.peek? other := by
  rw [peek?, store, lookup_store, peek?]
  split
  · cases hfound : c.slots.lookup key with
    | some found => rfl
    | none => exact absurd h (lookup_eq_none_iff.1 hfound)
  · rfl

theorem keys_invalidate (c : Cache κ α) (key : κ) :
    (c.invalidate key).2.keys = c.keys.filter (· ≠ key) := by
  simp only [keys, invalidate, List.filter_map]
  rfl

theorem peek?_invalidate (h : other ∈ (c.invalidate key).2.keys) :
    (c.invalidate key).2.peek? other = c.peek? other := by
  rw [keys_invalidate, List.mem_filter, decide_eq_true_iff] at h
  rw [peek?, invalidate, lookup_filter_ne, if_neg h.2, peek?]

theorem touch_counters (c : Cache κ α) (key : κ) : (c.touch key).capacity = c.capacity ∧
    (c.touch key).hits = c.hits ∧ (c.touch key).misses = c.misses := by
  unfold touch
  split <;> exact ⟨rfl, rfl, rfl⟩

section GetOrCompute

variable {outcome : Except ε α} {m : Type → Type} [Monad m]

theorem getOrCompute_found (h : c.peek? key = some value) (compute : Unit → Except ε α) :
    c.getOrCompute key compute =
      (.ok value, { c.touch key with hits := (c.touch key).hits + 1 }) := by
  simp only [getOrCompute, h]

theorem getOrCompute_computed (h : c.peek? key = none) (value : α) :
    c.getOrCompute key (fun _ => (.ok value : Except ε α)) =
      (.ok value, { c.touch key with misses := (c.touch key).misses + 1 }.store key value) := by
  simp only [getOrCompute, h]

theorem getOrCompute_failed (h : c.peek? key = none) (e : ε) :
    c.getOrCompute key (fun _ => .error e) =
      (.error e, { c.touch key with misses := (c.touch key).misses + 1 }) := by
  simp only [getOrCompute, h]

theorem getOrRun_eq [LawfulMonad m] (c : Cache κ α) (key : κ) (compute : m (Except ε α)) :
    c.getOrRun key compute = match c.peek? key with
      | some value => pure (c.getOrCompute key fun _ => .ok value)
      | none => (fun outcome => c.getOrCompute key fun _ => outcome) <$> compute := by
  unfold getOrRun getOrCompute
  cases c.peek? key with
  | some value => rfl
  | none =>
    dsimp only
    rw [map_eq_pure_bind]
    congr 1
    funext outcome
    cases outcome <;> rfl

theorem getOrRunSure_eq [LawfulMonad m] (c : Cache κ α) (key : κ)
    (compute : m α) :
    c.getOrRunSure key compute = match c.peek? key with
      | some value => pure (value, (c.getOrCompute key fun _ => (.ok value : Except ε α)).2)
      | none => (fun value =>
          (value, (c.getOrCompute key fun _ => (.ok value : Except ε α)).2)) <$> compute := by
  rw [getOrRunSure, getOrRun_eq]
  cases hfound : c.peek? key with
  | some value =>
    simp only [getOrCompute_found hfound, pure_bind]
  | none =>
    simp only [getOrCompute_computed hfound, map_eq_pure_bind, bind_assoc, pure_bind]

theorem keys_getOrCompute (c : Cache κ α) (key : κ) (compute : Unit → Except ε α) :
    (c.getOrCompute key compute).2.keys = key :: c.others key := by
  rw [← keys_touch, getOrCompute]
  cases c.peek? key with
  | some value => rfl
  | none => cases compute () with
    | ok value => exact keys_store _ key value
    | error e => rfl

theorem peek?_getOrCompute (h : other ∈ (c.getOrCompute key fun _ => outcome).2.keys) :
    (c.getOrCompute key fun _ => outcome).2.peek? other = some value ↔
      c.peek? other = some value ∨ c.peek? key = none ∧ other = key ∧ outcome = .ok value := by
  rw [keys_getOrCompute, ← keys_touch] at h
  have hkey : key ∈ (c.touch key).keys := keys_touch c key ▸ List.mem_cons_self
  have htouch := peek?_touch h
  cases hfound : c.peek? key with
  | some found =>
    rw [getOrCompute_found hfound]
    rw [← htouch]
    simp [peek?]
  | none =>
    cases outcome with
    | ok computed =>
      have hpeek : (c.getOrCompute key fun _ => (.ok computed : Except ε α)).2.peek? other =
          if other = key then some computed else c.peek? other := by
        rw [getOrCompute_computed hfound, ← htouch]
        exact peek?_store hkey
      rw [hpeek]
      by_cases hother : other = key
      · simp [hother, hfound]
      · simp [hother]
    | error e =>
      rw [getOrCompute_failed hfound, ← htouch]
      simp [peek?]

theorem getOrCompute_counters (c : Cache κ α) (key : κ) (outcome : Except ε α) :
    (c.getOrCompute key fun _ => outcome).2.capacity = c.capacity ∧
      (c.getOrCompute key fun _ => outcome).2.hits =
        (if (c.peek? key).isSome then c.hits + 1 else c.hits) ∧
      (c.getOrCompute key fun _ => outcome).2.misses =
        if (c.peek? key).isSome then c.misses else c.misses + 1 := by
  obtain ⟨hcapacity, hhits, hmisses⟩ := c.touch_counters key
  cases hfound : c.peek? key with
  | some value =>
    rw [getOrCompute_found hfound, ← hhits]
    exact ⟨hcapacity, rfl, hmisses⟩
  | none =>
    rw [← hmisses]
    cases outcome with
    | ok value =>
      rw [getOrCompute_computed hfound]
      exact ⟨hcapacity, hhits, rfl⟩
    | error e =>
      rw [getOrCompute_failed hfound]
      exact ⟨hcapacity, hhits, rfl⟩

end GetOrCompute

end SkipChain.Cache
