import SkipChain.Cache.Lazy
import SkipChain.Proofs.Cache.History
/-!
The cache over a map is seen to do what the plain one does, and so follows the rules whatever the
map is, as long as the map is lawful. The two go in step: the entries of the plain one are those of
the map, each with the value in its slot.
-/
namespace SkipChain.LazyCache

open Cache (Answer Call Exact Kept Service Session)

variable {κ α ε : Type} [DecidableEq κ] {L : LruMap κ Nat} {l : LazyCache L α} {c : Cache κ α}
  {key : κ} {slot : Nat} {value : α} {outcome : Except ε α}

/-- The same keys have places in both, in one order and with the same values. No two of them have
one slot. -/
structure InStep (l : LazyCache L α) (c : Cache κ α) : Prop where
  slots_eq : c.slots = (L.iter l.map).map fun entry => (entry.1, l.read entry.2)
  nodup : ((L.iter l.map).map Prod.snd).Nodup
  lt_length : ∀ entry ∈ L.iter l.map, entry.2 < l.slots.length
  capacity_eq : c.capacity = L.cap l.map
  hits_eq : c.hits = l.hits
  misses_eq : c.misses = l.misses

structure Entered (entered : Nat × LazyCache L α) (c : Cache κ α) (key : κ) : Prop where
  inStep : InStep entered.2 c
  first : ∃ rest, L.iter entered.2.map = (key, entered.1) :: rest ∧ ∀ entry ∈ rest, entry.1 ≠ key

omit [DecidableEq κ] in
theorem read_write_self (h : slot < l.slots.length) (value : α) :
    (l.write slot value).read slot = some value := by
  simp [read, write, h]

omit [DecidableEq κ] in
theorem read_write_of_ne {other : Nat} (h : other ≠ slot) (value : α) :
    (l.write slot value).read other = l.read other := by
  rw [read, write, List.getElem?_set_ne h.symm, read]

namespace InStep

omit [DecidableEq κ] in
theorem keys_eq (h : InStep l c) : c.keys = (L.iter l.map).map Prod.fst := by
  rw [Cache.keys, h.slots_eq, List.map_map]
  rfl

theorem lookup_eq (h : InStep l c) (key : κ) :
    c.slots.lookup key = ((L.iter l.map).lookup key).map l.read := by
  rw [h.slots_eq, lookup_map]

theorem peek?_eq (lawful : L.Lawful) (h : InStep l c) (key : κ) : l.peek? key = c.peek? key := by
  rw [peek?, Cache.peek?, h.lookup_eq, lawful.peek?_eq]
  cases (L.iter l.map).lookup key <;> rfl

theorem stats_eq (lawful : L.Lawful) (h : InStep l c) : l.stats = c.stats := by
  rw [stats, Cache.stats, Cache.size, h.slots_eq, List.length_map, h.capacity_eq, h.hits_eq,
    h.misses_eq, lawful.len_eq]

omit [DecidableEq κ] in
theorem cons (h : InStep l c) {l' : LazyCache L α} {c' : Cache κ α} {kept : List (κ × Nat)}
    (hkept : kept.Sublist (L.iter l.map)) (hiter : L.iter l'.map = (key, slot) :: kept)
    (hslot : slot ∉ kept.map Prod.snd) (hlt : slot < l'.slots.length)
    (hgrown : l.slots.length ≤ l'.slots.length)
    (hread : ∀ entry ∈ kept, l'.read entry.2 = l.read entry.2)
    (hslots : c'.slots = (key, l'.read slot) :: kept.map fun entry => (entry.1, l.read entry.2))
    (hcapacity : c'.capacity = L.cap l'.map) (hhits : c'.hits = l'.hits)
    (hmisses : c'.misses = l'.misses) : InStep l' c' where
  slots_eq := by
    rw [hslots, hiter, List.map_cons]
    congr 1
    exact List.map_congr_left fun entry hentry => by rw [hread entry hentry]
  nodup := by
    rw [hiter, List.map_cons, List.nodup_cons]
    exact ⟨hslot, h.nodup.sublist (hkept.map _)⟩
  lt_length := by
    rw [hiter]
    intro entry hentry
    rcases List.mem_cons.1 hentry with rfl | hentry
    · exact hlt
    · exact Nat.lt_of_lt_of_le (h.lt_length entry (hkept.mem hentry)) hgrown
  capacity_eq := hcapacity
  hits_eq := hhits
  misses_eq := hmisses

theorem enter_found (lawful : L.Lawful) (h : InStep l c)
    (hfound : L.peek? l.map key = some slot) : Entered (l.enter key) (c.touch key) key := by
  obtain ⟨hslot, hiter⟩ := lawful.getOrInsert_found l.map key l.slots.length slot hfound
  have hcap := lawful.cap_getOrInsert l.map key l.slots.length
  rw [lawful.peek?_eq] at hfound
  have hmem := mem_of_lookup hfound
  have hlt := h.lt_length _ hmem
  have henter : l.enter key =
      (slot, { l with map := (L.getOrInsert l.map key l.slots.length).2 }) := by
    simp only [enter, hslot, if_neg (Nat.ne_of_lt hlt)]
  have htouch : c.touch key =
      { c with slots := (key, l.read slot) :: c.slots.filter (·.1 ≠ key) } := by
    rw [Cache.touch, h.lookup_eq, hfound]
    rfl
  have hothers : ∀ entry ∈ (L.iter l.map).filter (·.1 ≠ key), entry.1 ≠ key := by
    intro entry hentry
    simpa using (List.mem_filter.1 hentry).2
  rw [henter, htouch]
  refine ⟨?_, _, hiter, hothers⟩
  refine h.cons List.filter_sublist hiter ?_ hlt (Nat.le_refl _) (fun _ _ => rfl) ?_
    (h.capacity_eq.trans hcap.symm) h.hits_eq h.misses_eq
  · intro htwice
    obtain ⟨entry, hentry, hsame⟩ := List.mem_map.1 htwice
    have heq := List.inj_on_of_nodup_map h.nodup (List.mem_of_mem_filter hentry) hmem hsame
    exact hothers entry hentry (congrArg Prod.fst heq)
  · simp only [h.slots_eq, List.filter_map]
    rfl

theorem enter_new (lawful : L.Lawful) (h : InStep l c) (hnew : L.peek? l.map key = none) :
    Entered (l.enter key) (c.touch key) key := by
  obtain ⟨hslot, hiter⟩ := lawful.getOrInsert_new l.map key l.slots.length hnew
  have hcap := lawful.cap_getOrInsert l.map key l.slots.length
  have henter : l.enter key = (l.slots.length,
      { l with
        map := (L.getOrInsert l.map key l.slots.length).2
        slots := l.slots ++ [none] }) := by
    simp only [enter, hslot, if_true]
  rw [lawful.peek?_eq] at hnew
  have hsize : c.size = L.len l.map := by
    rw [Cache.size, h.slots_eq, List.length_map, lawful.len_eq]
  have htouch : c.touch key = { c with slots :=
      (key, none) :: (if L.len l.map < L.cap l.map then c.slots else c.slots.dropLast) } := by
    rw [Cache.touch, h.lookup_eq, hnew, Option.map_none, ← hsize, ← h.capacity_eq]
  have hsub : (if L.len l.map < L.cap l.map then L.iter l.map
      else (L.iter l.map).dropLast).Sublist (L.iter l.map) := by
    split
    · exact .refl _
    · exact List.dropLast_sublist _
  have hothers : ∀ entry ∈ L.iter l.map, entry.1 ≠ key := by
    intro entry hentry heq
    have hkey : key ∈ (L.iter l.map).map Prod.fst := List.mem_map.2 ⟨entry, hentry, heq⟩
    exact lookup_eq_none_iff.1 hnew hkey
  rw [henter, htouch]
  refine ⟨?_, _, hiter, fun entry hentry => hothers entry (hsub.mem hentry)⟩
  refine h.cons hsub hiter ?_ (by simp) (by simp) ?_ ?_ (h.capacity_eq.trans hcap.symm)
    h.hits_eq h.misses_eq
  · -- the number of the slot is one that no entry has yet
    intro htwice
    obtain ⟨entry, hentry, hsame⟩ := List.mem_map.1 htwice
    exact absurd hsame (Nat.ne_of_lt (h.lt_length entry (hsub.mem hentry)))
  · intro entry hentry
    simp only [read, List.getElem?_append_left (h.lt_length entry (hsub.mem hentry))]
  · simp only [h.slots_eq, read, List.getElem?_concat_length]
    split
    · rfl
    · rw [List.map_dropLast]
      rfl

theorem enter (lawful : L.Lawful) (h : InStep l c) (key : κ) :
    Entered (l.enter key) (c.touch key) key := by
  cases hfound : L.peek? l.map key with
  | some slot => exact h.enter_found lawful hfound
  | none => exact h.enter_new lawful hfound

theorem write (h : InStep l c) {rest : List (κ × Nat)}
    (hiter : L.iter l.map = (key, slot) :: rest) (hrest : ∀ entry ∈ rest, entry.1 ≠ key)
    (value : α) : InStep (l.write slot value) (c.store key value) := by
  have hlt := h.lt_length (key, slot) (hiter ▸ List.mem_cons_self)
  have hnodup := h.nodup
  rw [hiter, List.map_cons, List.nodup_cons] at hnodup
  constructor
  case slots_eq =>
    have hothers : ∀ entry ∈ rest,
        (if entry.1 = key then (key, some value) else (entry.1, l.read entry.2)) =
          (entry.1, (l.write slot value).read entry.2) := by
      intro entry hentry
      have hslot : entry.2 ≠ slot :=
        fun heq => hnodup.1 (List.mem_map.2 ⟨entry, hentry, heq⟩)
      rw [if_neg (hrest entry hentry), read_write_of_ne hslot]
    have hwritten : L.iter (l.write slot value).map = (key, slot) :: rest := hiter
    rw [Cache.store, h.slots_eq, List.map_map, hiter, hwritten, List.map_cons, List.map_cons,
      read_write_self hlt]
    exact List.cons_eq_cons.2 ⟨if_pos rfl, List.map_congr_left hothers⟩
  case nodup => exact h.nodup
  case lt_length =>
    intro entry hentry
    simpa [LazyCache.write] using h.lt_length entry hentry
  case capacity_eq => exact h.capacity_eq
  case hits_eq => exact h.hits_eq
  case misses_eq => exact h.misses_eq

omit [DecidableEq κ] in
theorem hit (h : InStep l c) :
    InStep { l with hits := l.hits + 1 } { c with hits := c.hits + 1 } :=
  ⟨h.slots_eq, h.nodup, h.lt_length, h.capacity_eq, congrArg (· + 1) h.hits_eq, h.misses_eq⟩

omit [DecidableEq κ] in
theorem miss (h : InStep l c) :
    InStep { l with misses := l.misses + 1 } { c with misses := c.misses + 1 } :=
  ⟨h.slots_eq, h.nodup, h.lt_length, h.capacity_eq, h.hits_eq, congrArg (· + 1) h.misses_eq⟩

theorem invalidate (lawful : L.Lawful) (h : InStep l c) (key : κ) :
    (l.invalidate key).1 = (c.invalidate key).1 ∧
      InStep (l.invalidate key).2 (c.invalidate key).2 := by
  have hiter := lawful.iter_pop l.map key
  have hcap := lawful.cap_pop l.map key
  refine ⟨?_, ?_⟩
  · rw [LazyCache.invalidate, Cache.invalidate, h.lookup_eq]
    simp only [lawful.pop_fst, lawful.peek?_eq, Option.isSome_map]
  · constructor
    case slots_eq =>
      simp only [LazyCache.invalidate, Cache.invalidate, hiter, h.slots_eq, List.filter_map]
      rfl
    case nodup =>
      simp only [LazyCache.invalidate, hiter]
      exact h.nodup.sublist (List.filter_sublist.map _)
    case lt_length =>
      simp only [LazyCache.invalidate, hiter]
      exact fun entry hentry => h.lt_length entry (List.mem_of_mem_filter hentry)
    case capacity_eq => exact h.capacity_eq.trans hcap.symm
    case hits_eq => exact h.hits_eq
    case misses_eq => exact h.misses_eq

theorem clear (lawful : L.Lawful) (h : InStep l c) : InStep l.clear c.clear := by
  have hiter := lawful.iter_clear l.map
  constructor
  case slots_eq => simp only [LazyCache.clear, Cache.clear, hiter, List.map_nil]
  case nodup => simp only [LazyCache.clear, hiter, List.map_nil, List.nodup_nil]
  case lt_length => simp [LazyCache.clear, hiter]
  case capacity_eq => exact h.capacity_eq.trans (lawful.cap_clear l.map).symm
  case hits_eq => exact h.hits_eq
  case misses_eq => exact h.misses_eq

end InStep

section Ask

variable {m : Type → Type} [Monad m] [LawfulMonad m]

def ask (l : LazyCache L α) (key : κ) (outcome : Except ε α) : Except ε α × LazyCache L α :=
  Id.run (l.getOrTryCompute key (pure outcome))

theorem read_enter (lawful : L.Lawful) (l : LazyCache L α) (key : κ) :
    (l.enter key).2.read (l.enter key).1 = l.peek? key := by
  rw [peek?]
  cases hfound : L.peek? l.map key with
  | some slot =>
    obtain ⟨hslot, -⟩ := lawful.getOrInsert_found l.map key l.slots.length slot hfound
    by_cases hfresh : slot = l.slots.length <;> simp [enter, read, hslot, hfresh]
  | none =>
    obtain ⟨hslot, -⟩ := lawful.getOrInsert_new l.map key l.slots.length hfound
    simp [enter, read, hslot]

theorem ask_found (lawful : L.Lawful) (h : l.peek? key = some value) (outcome : Except ε α) :
    l.ask key outcome =
      (.ok value, { (l.enter key).2 with hits := (l.enter key).2.hits + 1 }) := by
  rw [← read_enter lawful] at h
  simp only [ask, getOrTryCompute, h]
  rfl

theorem ask_missing (lawful : L.Lawful) (h : l.peek? key = none) (outcome : Except ε α) :
    l.ask key outcome = (outcome, match outcome with
      | .ok value =>
        { (l.enter key).2 with misses := (l.enter key).2.misses + 1 }.write (l.enter key).1 value
      | .error _ => { (l.enter key).2 with misses := (l.enter key).2.misses + 1 }) := by
  rw [← read_enter lawful] at h
  simp only [ask, getOrTryCompute, h]
  cases outcome <;> rfl

theorem getOrTryCompute_eq (lawful : L.Lawful) (l : LazyCache L α) (key : κ)
    (compute : m (Except ε α)) :
    l.getOrTryCompute key compute = match l.peek? key with
      | some value => pure (.ok value, (l.ask key (.ok value : Except ε α)).2)
      | none => (fun outcome => (outcome, (l.ask key outcome).2)) <$> compute := by
  cases hfound : l.peek? key with
  | some value =>
    simp only [ask_found lawful hfound]
    rw [← read_enter lawful] at hfound
    simp only [getOrTryCompute, hfound]
  | none =>
    simp only [ask_missing lawful hfound]
    rw [← read_enter lawful] at hfound
    simp only [getOrTryCompute, hfound, map_eq_pure_bind]
    congr 1
    funext outcome
    cases outcome <;> rfl

theorem getOrCompute_eq (lawful : L.Lawful) (l : LazyCache L α) (key : κ) (compute : m α) :
    l.getOrCompute key compute = match l.peek? key with
      | some value => pure (value, (l.ask key (.ok value : Except ε α)).2)
      | none => (fun value => (value, (l.ask key (.ok value : Except ε α)).2)) <$> compute := by
  rw [getOrCompute, getOrTryCompute_eq lawful]
  cases hfound : l.peek? key with
  | some value => simp only [ask_found lawful hfound, pure_bind]
  | none => simp only [ask_missing lawful hfound, map_eq_pure_bind, bind_assoc, pure_bind]

theorem asks_service (lawful : L.Lawful) :
    (service L : Service (LazyCache L α) κ ε α).Asks
      fun l key outcome => (l.ask key outcome).2 where
  get_eq l key compute := getOrTryCompute_eq lawful l key compute
  getSure_eq l key compute := getOrCompute_eq lawful l key compute
  ask_found l key value outcome hfound := by
    rw [ask_found lawful hfound, ask_found lawful hfound]

end Ask

theorem InStep.ask (lawful : L.Lawful) (h : InStep l c) (key : κ) (outcome : Except ε α) :
    InStep (l.ask key outcome).2 (c.getOrCompute key fun _ => outcome).2 := by
  obtain ⟨inStep, rest, hiter, hrest⟩ := h.enter lawful key
  have hpeek := h.peek?_eq lawful key
  cases hfound : c.peek? key with
  | some value =>
    rw [ask_found lawful (hpeek.trans hfound), Cache.getOrCompute_found hfound]
    exact inStep.hit
  | none =>
    rw [ask_missing lawful (hpeek.trans hfound)]
    cases outcome with
    | ok value =>
      rw [Cache.getOrCompute_computed hfound]
      exact inStep.miss.write hiter hrest value
    | error e =>
      rw [Cache.getOrCompute_failed hfound]
      exact inStep.miss

structure Together (s : Session (LazyCache L α) κ ε α) (t : Session (Cache κ α) κ ε α) : Prop where
  inStep : InStep s.cache t.cache
  log_eq : s.log = t.log

namespace Together

variable {s : Session (LazyCache L α) κ ε α} {t : Session (Cache κ α) κ ε α}

theorem perform (lawful : L.Lawful) (h : Together s t) (call : Call κ ε α) :
    (service L).answer s call = Cache.service.answer t call ∧
      Together ((service L).leave s call) (Cache.service.leave t call) := by
  have hpeek := h.inStep.peek?_eq lawful
  cases hasked : call.asked? with
  | some asked =>
    obtain ⟨key, outcome⟩ := asked
    have inStep := h.inStep.ask lawful key outcome
    rw [← (asks_service lawful).cache_eq hasked, ← Cache.Session.cache_of_asked hasked] at inStep
    cases hfound : t.cache.peek? key with
    | some value =>
      obtain ⟨hanswer, hlog⟩ := (asks_service lawful).hit hasked ((hpeek key).trans hfound)
      obtain ⟨hanswer', hlog'⟩ := Cache.Session.asks_service.hit hasked hfound
      exact ⟨hanswer.trans hanswer'.symm, inStep, hlog.trans (h.log_eq.trans hlog'.symm)⟩
    | none =>
      obtain ⟨hanswer, hlog⟩ := (asks_service lawful).miss hasked ((hpeek key).trans hfound)
      obtain ⟨hanswer', hlog'⟩ := Cache.Session.asks_service.miss hasked hfound
      refine ⟨hanswer.trans hanswer'.symm, inStep, ?_⟩
      rw [hlog, hlog', h.log_eq]
  | none =>
    cases call with
    | get _ _ => cases hasked
    | getSure _ _ => cases hasked
    | peek key => exact ⟨congrArg Answer.seen (hpeek key), h⟩
    | invalidate key =>
      obtain ⟨hfound, inStep⟩ := h.inStep.invalidate lawful key
      exact ⟨congrArg Answer.invalidated hfound, inStep, h.log_eq⟩
    | clear => exact ⟨rfl, h.inStep.clear lawful, h.log_eq⟩

theorem view_eq (lawful : L.Lawful) (h : Together s t) :
    (service L).view s = Cache.service.view t := by
  have hkeys : (service L : Service (LazyCache L α) κ ε α).keys s.cache =
      (Cache.service : Service (Cache κ α) κ ε α).keys t.cache := h.inStep.keys_eq.symm
  have hstats : (service L : Service (LazyCache L α) κ ε α).stats s.cache =
      (Cache.service : Service (Cache κ α) κ ε α).stats t.cache := h.inStep.stats_eq lawful
  have hanswer : (service L).answer s = Cache.service.answer t :=
    funext fun call => (h.perform lawful call).1
  rw [Service.view, Service.view, hkeys, hstats, h.log_eq, hanswer]

end Together

theorem together_after (lawful : L.Lawful) (h : InStep l c) (calls : List (Call κ ε α)) :
    Together ((service L).after l calls) (Cache.service.after c calls) := by
  induction calls using List.reverseRecOn with
  | nil => exact ⟨h, rfl⟩
  | append_singleton calls call ih =>
    rw [Service.after_concat, Service.after_concat]
    exact (ih.perform lawful call).2

theorem inStep_new (lawful : L.Lawful) {capacity : Nat} (h : 0 < capacity) :
    InStep (⟨L.new capacity h, [], 0, 0⟩ : LazyCache L α) ⟨capacity, h, [], 0, 0⟩ := by
  have hiter := lawful.iter_new capacity h
  constructor
  case slots_eq => simp only [hiter, List.map_nil]
  case nodup => simp only [hiter, List.map_nil, List.nodup_nil]
  case lt_length => simp [hiter]
  case capacity_eq => exact (lawful.cap_new capacity h).symm
  case hits_eq => rfl
  case misses_eq => rfl

/-- A cache with at least one place, over any lawful map, follows the rules after any calls. What is
seen of it is what is seen of the plain cache. -/
theorem exact_after (L : LruMap κ Nat) (lawful : L.Lawful) {capacity : Nat} (h : 1 ≤ capacity) :
    ∃ (l : LazyCache L α) (c : Cache κ α),
      withCapacity L capacity = .ok l ∧ Cache.new capacity = .ok c ∧
        ∀ calls : List (Call κ ε α), Exact ((service L).seen l) calls capacity ∧
          (service L).seen l calls = Cache.service.seen c calls := by
  refine ⟨_, _, dif_pos h, dif_pos h, fun calls => ?_⟩
  have hseen : (service L).seen ⟨L.new capacity h, [], 0, 0⟩ =
      (Cache.service.seen ⟨capacity, h, [], 0, 0⟩ : List (Call κ ε α) → Cache.View κ ε α) :=
    funext fun calls => (together_after lawful (inStep_new lawful h) calls).view_eq lawful
  rw [hseen]
  exact ⟨Cache.exact_seen h calls, rfl⟩

def listed (κ σ : Type) [DecidableEq κ] : LruMap κ σ where
  Map := Nat × List (κ × σ)
  new capacity _ := (capacity, [])
  getOrInsert map key x := match map.2.lookup key with
    | some found => (found, map.1, (key, found) :: map.2.filter (·.1 ≠ key))
    | none => (x, map.1, (key, x) :: if map.2.length < map.1 then map.2 else map.2.dropLast)
  peek? map key := map.2.lookup key
  pop map key := (map.2.lookup key, map.1, map.2.filter (·.1 ≠ key))
  clear map := (map.1, [])
  len map := map.2.length
  cap := Prod.fst
  iter := Prod.snd

theorem lawful_listed (κ σ : Type) [DecidableEq κ] : (listed κ σ).Lawful where
  iter_new _ _ := rfl
  cap_new _ _ := rfl
  peek?_eq _ _ := rfl
  len_eq _ := rfl
  getOrInsert_found map key x found h := by
    have h : map.2.lookup key = some found := h
    simp only [listed, h, and_self]
  getOrInsert_new map key x h := by
    have h : map.2.lookup key = none := h
    simp only [listed, h]
    exact ⟨trivial, rfl⟩
  cap_getOrInsert map key x := by
    simp only [listed]
    split <;> rfl
  pop_fst _ _ := rfl
  iter_pop _ _ := rfl
  cap_pop _ _ := rfl
  iter_clear _ := rfl
  cap_clear _ := rfl

def refilling : List (Call Nat String Nat) :=
  [.get 1 (.error "offline"), .getSure 2 20, .get 1 (.ok 10), .peek 2, .getSure 3 30,
    .get 1 (.ok 11)]

theorem exact_after_refilling : (listed Nat Nat).Lawful ∧ 1 ≤ 2 ∧
    ∃ l : LazyCache (listed Nat Nat) Nat, withCapacity (listed Nat Nat) 2 = .ok l ∧
      Exact ((service _).seen l) refilling 2 ∧ Kept ((service _).seen l) refilling 1 10 ∧
      ((service _).seen l refilling).keys = [1, 3] ∧
      ((service _).seen l refilling).stats = ⟨1, 4, 2, 2⟩ := by
  refine ⟨lawful_listed Nat Nat, by decide, ?_⟩
  obtain ⟨l, c, hnew, -, hseen⟩ := exact_after (listed Nat Nat) (lawful_listed Nat Nat)
    (show 1 ≤ 2 by decide)
  obtain ⟨hexact, -⟩ := hseen refilling
  obtain ⟨⟨shown, hshown, hkept⟩, -⟩ := hexact.peeked 1
  refine ⟨l, hnew, hexact, ?_⟩
  cases hnew
  cases hshown
  exact ⟨(hkept 10).1 rfl, rfl, rfl⟩

end SkipChain.LazyCache
