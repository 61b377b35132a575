import Mathlib.Data.List.Induction
import SkipChain.Proofs.Cache.Recency
/-!
A cache told by its history. After any calls, which keys have a place and which values are kept is
what the calls so far make of it: a value is computed once for as long as its key has a place, and
the key to make room for another is the one that was asked for longest ago.
-/
namespace SkipChain.Cache

variable {σ κ α ε : Type}

def Call.asked? : Call κ ε α → Option (κ × Except ε α)
  | .get key outcome => some (key, outcome)
  | .getSure key value => some (key, .ok value)
  | _ => none

namespace Service

variable (S : Service σ κ ε α) (c : σ)

theorem after_append (calls later : List (Call κ ε α)) :
    S.after c (calls ++ later) = later.foldl S.leave (S.after c calls) :=
  List.foldl_append

theorem after_concat (calls : List (Call κ ε α)) (call : Call κ ε α) :
    S.after c (calls ++ [call]) = S.leave (S.after c calls) call :=
  S.after_append c calls [call]

theorem after_induct {P : List (Call κ ε α) → Session σ κ ε α → Prop} (start : P [] ⟨c, []⟩)
    (step : ∀ calls s call, P calls s → P (calls ++ [call]) (S.leave s call))
    (calls : List (Call κ ε α)) : P calls (S.after c calls) := by
  induction calls using List.reverseRecOn with
  | nil => exact start
  | append_singleton calls call ih =>
    rw [after_concat]
    exact step calls _ call ih

/-- Asking for a key leaves what `ask` says, and runs the computation where there is no value. -/
structure Asks (ask : σ → κ → Except ε α → σ) : Prop where
  get_eq : ∀ c key compute, S.get c key compute = match S.peek? c key with
    | some value => pure (.ok value, ask c key (.ok value))
    | none => (fun outcome => (outcome, ask c key outcome)) <$> compute
  getSure_eq : ∀ c key compute, S.getSure c key compute = match S.peek? c key with
    | some value => pure (value, ask c key (.ok value))
    | none => (fun value => (value, ask c key (.ok value))) <$> compute
  ask_found : ∀ c key value outcome, S.peek? c key = some value →
    ask c key outcome = ask c key (.ok value)

section Asks

variable {S} {ask : σ → κ → Except ε α → σ} {s : Session σ κ ε α} {call : Call κ ε α} {key : κ}
  {outcome : Except ε α} {value : α}

theorem Asks.perform_found (asks : S.Asks ask) (h : call.asked? = some (key, outcome))
    (hfound : S.peek? s.cache key = some value) :
    S.perform s call = (.got (.ok value), ⟨ask s.cache key outcome, s.log⟩) := by
  rw [asks.ask_found _ _ _ _ hfound]
  cases call <;> cases h
  case get =>
    rw [perform, asks.get_eq, hfound]
    rfl
  case getSure =>
    rw [perform, asks.getSure_eq, hfound]
    rfl

theorem Asks.perform_missing (asks : S.Asks ask) (h : call.asked? = some (key, outcome))
    (hmissing : S.peek? s.cache key = none) :
    S.perform s call = (.got outcome, ⟨ask s.cache key outcome, (key, outcome) :: s.log⟩) := by
  cases call <;> cases h
  case get =>
    rw [perform, asks.get_eq, hmissing]
    rfl
  case getSure =>
    rw [perform, asks.getSure_eq, hmissing]
    rfl

theorem Asks.hit (asks : S.Asks ask) (h : call.asked? = some (key, outcome))
    (hfound : S.peek? s.cache key = some value) :
    S.answer s call = .got (.ok value) ∧ (S.leave s call).log = s.log := by
  rw [answer, leave, asks.perform_found h hfound]
  exact ⟨rfl, rfl⟩

theorem Asks.miss (asks : S.Asks ask) (h : call.asked? = some (key, outcome))
    (hmissing : S.peek? s.cache key = none) :
    S.answer s call = .got outcome ∧ (S.leave s call).log = (key, outcome) :: s.log := by
  rw [answer, leave, asks.perform_missing h hmissing]
  exact ⟨rfl, rfl⟩

theorem Asks.cache_eq (asks : S.Asks ask) (h : call.asked? = some (key, outcome)) :
    (S.leave s call).cache = ask s.cache key outcome := by
  cases hfound : S.peek? s.cache key with
  | some value => rw [leave, asks.perform_found h hfound]
  | none => rw [leave, asks.perform_missing h hfound]

end Asks

end Service

/-- A computation for the key has given the value, and the key has had its place ever since. -/
def Kept (seen : List (Call κ ε α) → View κ ε α) (calls : List (Call κ ε α)) (key : κ)
    (value : α) : Prop :=
  ∃ before call later, calls = before ++ call :: later ∧
    (seen (before ++ [call])).log = (key, .ok value) :: (seen before).log ∧
    ∀ n ≤ later.length, key ∈ (seen (before ++ call :: later.take n)).keys

theorem kept_concat (seen : List (Call κ ε α) → View κ ε α) (calls : List (Call κ ε α))
    (call : Call κ ε α) (key : κ) (value : α) :
    Kept seen (calls ++ [call]) key value ↔ key ∈ (seen (calls ++ [call])).keys ∧
      (Kept seen calls key value ∨
        (seen (calls ++ [call])).log = (key, .ok value) :: (seen calls).log) := by
  constructor
  · rintro ⟨before, first, later, heq, hlog, hplace⟩
    have hlast := hplace later.length (Nat.le_refl _)
    rw [List.take_length, ← heq] at hlast
    refine ⟨hlast, ?_⟩
    rcases List.eq_nil_or_concat later with rfl | ⟨later, last, rfl⟩
    · obtain ⟨rfl, hcall⟩ := List.append_inj' heq rfl
      cases hcall
      exact .inr hlog
    · rw [List.concat_eq_append, ← List.cons_append, ← List.append_assoc] at heq
      obtain ⟨rfl, hcall⟩ := List.append_inj' heq rfl
      refine .inl ⟨before, first, later, rfl, hlog, fun n hn => ?_⟩
      have hn' := hplace n (by simp; omega)
      rwa [List.concat_eq_append, List.take_append_of_le_length hn] at hn'
  · rintro ⟨hlast, ⟨before, first, later, rfl, hlog, hplace⟩ | hlog⟩
    · refine ⟨before, first, later ++ [call], by simp, hlog, fun n hn => ?_⟩
      by_cases hn' : n ≤ later.length
      · rw [List.take_append_of_le_length hn']
        exact hplace n hn'
      · rw [List.take_of_length_le (by simp; omega)]
        simpa using hlast
    · refine ⟨calls, call, [], rfl, hlog, fun n hn => ?_⟩
      rwa [List.take_nil]

theorem not_kept_nil (seen : List (Call κ ε α) → View κ ε α) (key : κ) (value : α) :
    ¬Kept seen [] key value := by
  rintro ⟨before, call, later, heq, -⟩
  simp at heq

variable [DecidableEq κ]

namespace Call

def asksFor (key : κ) (call : Call κ ε α) : Bool := call.asked?.any (·.1 = key)

def lastAsked (calls : List (Call κ ε α)) (key : κ) : Nat :=
  calls.length - calls.reverse.findIdx (asksFor key)

variable {call : Call κ ε α} {calls : List (Call κ ε α)} {key other : κ} {outcome : Except ε α}

theorem asksFor_of_asked (h : call.asked? = some (key, outcome)) :
    call.asksFor other ↔ other = key := by
  simp [asksFor, h, eq_comm]

theorem lastAsked_le (calls : List (Call κ ε α)) (key : κ) : lastAsked calls key ≤ calls.length :=
  Nat.sub_le _ _

theorem lastAsked_concat (calls : List (Call κ ε α)) (call : Call κ ε α) (key : κ) :
    lastAsked (calls ++ [call]) key =
      if call.asksFor key then calls.length + 1 else lastAsked calls key := by
  rw [lastAsked, List.length_append, List.length_singleton, List.reverse_append,
    List.reverse_singleton, List.singleton_append, List.findIdx_cons]
  cases call.asksFor key with
  | true => rfl
  | false => exact Nat.add_sub_add_right _ 1 _

end Call

open Call (lastAsked)

/-- A call takes the place of a key for one that has none, as there is no other place: the key is
the one of those with a place that was asked for longest ago. -/
structure Displaces (view : View κ ε α) (calls : List (Call κ ε α)) (call : Call κ ε α) (key : κ) :
    Prop where
  placeless : ∃ other outcome, call.asked? = some (other, outcome) ∧ other ∉ view.keys
  full : view.stats.size = view.stats.capacity
  oldest : ∀ other ∈ view.keys, other ≠ key → lastAsked calls key < lastAsked calls other

/-- The rules of a cache, told by what is seen of it after any calls. -/
structure Exact (seen : List (Call κ ε α) → View κ ε α) (calls : List (Call κ ε α))
    (capacity : Nat) : Prop where
  nodup_keys : (seen calls).keys.Nodup
  size_eq : (seen calls).stats.size = (seen calls).keys.length
  size_le : (seen calls).stats.size ≤ capacity
  capacity_eq : (seen calls).stats.capacity = capacity
  /-- A value that is kept is given without running the computation. -/
  found : ∀ call key outcome value, call.asked? = some (key, outcome) → Kept seen calls key value →
    (seen calls).answer call = .got (.ok value) ∧ (seen (calls ++ [call])).log = (seen calls).log
  /-- If none is kept, the computation is run, and what it gives is given. -/
  computed : ∀ call key outcome, call.asked? = some (key, outcome) →
    (¬∃ value, Kept seen calls key value) → (seen calls).answer call = .got outcome ∧
      (seen (calls ++ [call])).log = (key, outcome) :: (seen calls).log
  /-- A look at a key shows the value that is kept, and makes no difference to what follows. -/
  peeked : ∀ key, (∃ shown, (seen calls).answer (.peek key) = .seen shown ∧
      ∀ value, shown = some value ↔ Kept seen calls key value) ∧
    ∀ later, seen (calls ++ .peek key :: later) = seen (calls ++ later)
  entered_iff : ∀ call key, key ∉ (seen calls).keys →
    (key ∈ (seen (calls ++ [call])).keys ↔ call.asksFor key)
  left_iff : ∀ call key, key ∈ (seen calls).keys →
    (key ∉ (seen (calls ++ [call])).keys ↔
      call = .invalidate key ∨ call = .clear ∨ Displaces (seen calls) calls call key)
  hits_add_misses : (seen calls).stats.hits + (seen calls).stats.misses =
    calls.countP fun call => call.asked?.isSome
  misses_eq : (seen calls).stats.misses = (seen calls).log.length

namespace Session

variable {s : Session (Cache κ α) κ ε α} {c : Cache κ α} {call : Call κ ε α}
  {calls : List (Call κ ε α)} {key other : κ} {outcome : Except ε α} {value : α}

theorem asks_service : (service : Service (Cache κ α) κ ε α).Asks fun c key outcome =>
    (c.getOrCompute key fun _ => outcome).2 where
  get_eq c key compute := by
    simp only [service]
    rw [getOrRun_eq]
    cases hfound : c.peek? key with
    | some value => simp only [getOrCompute_found hfound]
    | none =>
      refine congrArg (· <$> compute) (funext fun outcome => ?_)
      cases outcome with
      | ok value => rw [getOrCompute_computed hfound]
      | error e => rw [getOrCompute_failed hfound]
  getSure_eq c key compute := getOrRunSure_eq c key compute
  ask_found c key value outcome hfound := by
    simp only [service] at hfound
    simp only [getOrCompute_found hfound]

theorem cache_of_asked (h : call.asked? = some (key, outcome)) :
    (service.leave s call).cache = (s.cache.getOrCompute key fun _ => outcome).2 :=
  asks_service.cache_eq h

theorem keys_of_asked (h : call.asked? = some (key, outcome)) :
    (service.leave s call).cache.keys = key :: s.cache.others key := by
  rw [cache_of_asked h, keys_getOrCompute]

structure Yields (s s' : Session (Cache κ α) κ ε α) : Prop where
  keys : s'.cache.keys.Sublist s.cache.keys
  peek?_eq : ∀ key ∈ s'.cache.keys, s'.cache.peek? key = s.cache.peek? key
  log_eq : s'.log = s.log
  capacity_eq : s'.cache.capacity = s.cache.capacity
  hits_eq : s'.cache.hits = s.cache.hits
  misses_eq : s'.cache.misses = s.cache.misses

theorem yields_of_not_asked (s : Session (Cache κ α) κ ε α) (h : call.asked? = none) :
    s.Yields (service.leave s call) := by
  cases call <;> try cases h
  case peek key => exact ⟨.refl _, fun _ _ => rfl, rfl, rfl, rfl, rfl⟩
  case invalidate key =>
    refine ⟨?_, fun other hother => peek?_invalidate hother, rfl, rfl, rfl, rfl⟩
    exact keys_invalidate s.cache key ▸ List.filter_sublist
  case clear => exact ⟨List.nil_sublist _, nofun, rfl, rfl, rfl, rfl⟩

structure Ordered (calls : List (Call κ ε α)) (s : Session (Cache κ α) κ ε α) : Prop where
  recent : s.cache.keys.Pairwise fun key other => lastAsked calls other < lastAsked calls key
  size_le : s.cache.size ≤ s.cache.capacity

theorem Ordered.leave (ordered : Ordered calls s) (call : Call κ ε α) :
    Ordered (calls ++ [call]) (service.leave s call) := by
  cases hasked : call.asked? with
  | some asked =>
    obtain ⟨key, outcome⟩ := asked
    have hkept : ∀ other, other ≠ key →
        lastAsked (calls ++ [call]) other = lastAsked calls other := by
      intro other hother
      rw [Call.lastAsked_concat, if_neg fun h => hother ((Call.asksFor_of_asked hasked).1 h)]
    have hkey : lastAsked (calls ++ [call]) key = calls.length + 1 := by
      rw [Call.lastAsked_concat, if_pos ((Call.asksFor_of_asked hasked).2 rfl)]
    have hothers : ∀ other ∈ s.cache.others key, other ≠ key :=
      fun other hmem heq => s.cache.not_mem_others key (heq ▸ hmem)
    constructor
    · rw [keys_of_asked hasked, List.pairwise_cons]
      constructor
      · intro other hmem
        rw [hkept other (hothers other hmem), hkey]
        exact Nat.lt_succ_of_le (Call.lastAsked_le calls other)
      · apply (ordered.recent.sublist (s.cache.others_sublist key)).imp_of_mem
        intro a b ha hb hab
        rwa [hkept a (hothers a ha), hkept b (hothers b hb)]
    · rw [← length_keys, keys_of_asked hasked, cache_of_asked hasked,
        (getOrCompute_counters s.cache key outcome).1]
      exact length_others_lt ordered.size_le
  | none =>
    have yields := s.yields_of_not_asked hasked
    have hsame : ∀ key, lastAsked (calls ++ [call]) key = lastAsked calls key := by
      intro key
      rw [Call.lastAsked_concat, Call.asksFor, hasked]
      rfl
    constructor
    · simp only [hsame]
      exact ordered.recent.sublist yields.keys
    · rw [yields.capacity_eq]
      have hlength := yields.keys.length_le
      rw [length_keys, length_keys] at hlength
      exact Nat.le_trans hlength ordered.size_le

structure Counted (calls : List (Call κ ε α)) (s : Session (Cache κ α) κ ε α) : Prop where
  hits_add_misses : s.cache.hits + s.cache.misses = calls.countP fun call => call.asked?.isSome
  misses_eq : s.cache.misses = s.log.length

theorem Counted.leave (counted : Counted calls s) (call : Call κ ε α) :
    Counted (calls ++ [call]) (service.leave s call) := by
  have hasks := counted.hits_add_misses
  have hruns := counted.misses_eq
  cases hasked : call.asked? with
  | some asked =>
    obtain ⟨key, outcome⟩ := asked
    obtain ⟨-, hhits, hmisses⟩ := getOrCompute_counters s.cache key outcome
    rw [← cache_of_asked hasked] at hhits hmisses
    constructor
    · have hsum : (service.leave s call).cache.hits + (service.leave s call).cache.misses =
          s.cache.hits + s.cache.misses + 1 := by
        rw [hhits, hmisses]
        split <;> omega
      rw [hsum, hasks, List.countP_append, List.countP_singleton, hasked]
      rfl
    · cases hfound : s.cache.peek? key with
      | some value =>
        rw [hmisses, hfound, (asks_service.hit hasked hfound).2, ← hruns]
        rfl
      | none =>
        rw [hmisses, hfound, (asks_service.miss hasked hfound).2, List.length_cons, ← hruns]
        rfl
  | none =>
    have yields := s.yields_of_not_asked hasked
    constructor
    · rw [yields.hits_eq, yields.misses_eq, List.countP_append, ← hasks]
      simp [hasked]
    · rw [yields.misses_eq, yields.log_eq, hruns]

theorem peek?_leave (s : Session (Cache κ α) κ ε α) (call : Call κ ε α) (key : κ) (value : α) :
    (service.leave s call).cache.peek? key = some value ↔
      key ∈ (service.leave s call).cache.keys ∧ (s.cache.peek? key = some value ∨
        (service.leave s call).log = (key, .ok value) :: s.log) := by
  by_cases hplace : key ∈ (service.leave s call).cache.keys
  case neg =>
    rw [peek?_eq_none hplace]
    exact iff_of_false nofun fun h => hplace h.1
  rw [and_iff_right hplace]
  cases hasked : call.asked? with
  | some asked =>
    obtain ⟨other, outcome⟩ := asked
    have hcache := cache_of_asked (s := s) hasked
    rw [hcache] at hplace
    rw [hcache, peek?_getOrCompute hplace]
    cases hfound : s.cache.peek? other with
    | some found =>
      rw [(asks_service.hit hasked hfound).2]
      simp
    | none =>
      rw [(asks_service.miss hasked hfound).2]
      simp [eq_comm]
  | none =>
    have yields := s.yields_of_not_asked hasked
    rw [yields.peek?_eq key hplace, yields.log_eq]
    simp

theorem peek?_after (hempty : c.slots = []) (calls : List (Call κ ε α)) (key : κ) (value : α) :
    (service.after c calls).cache.peek? key = some value ↔
      Kept (service.seen c) calls key value := by
  induction calls using List.reverseRecOn with
  | nil =>
    refine iff_of_false ?_ (not_kept_nil _ key value)
    simp [Service.after, peek?, hempty]
  | append_singleton calls call ih =>
    rw [kept_concat, ← ih, Service.after_concat, peek?_leave, Service.seen, Service.after_concat]
    rfl

theorem entered_iff (hplace : key ∉ s.cache.keys) :
    key ∈ (service.leave s call).cache.keys ↔ call.asksFor key := by
  cases hasked : call.asked? with
  | some asked =>
    obtain ⟨other, outcome⟩ := asked
    rw [keys_of_asked hasked, Call.asksFor_of_asked hasked, List.mem_cons]
    exact or_iff_left fun h => hplace ((s.cache.others_sublist other).mem h)
  | none =>
    have yields := s.yields_of_not_asked hasked
    refine iff_of_false (fun h => hplace (yields.keys.mem h)) ?_
    simp [Call.asksFor, hasked]

theorem displaces_iff (hasked : call.asked? = some (other, outcome)) :
    Displaces (service.view s) calls call key ↔
      other ∉ s.cache.keys ∧ s.cache.size = s.cache.capacity ∧
        ∀ third ∈ s.cache.keys, third ≠ key → lastAsked calls key < lastAsked calls third := by
  constructor
  · rintro ⟨⟨asked, outcome', hasked', hnew⟩, hfull, holdest⟩
    rw [hasked] at hasked'
    cases hasked'
    exact ⟨hnew, hfull, holdest⟩
  · rintro ⟨hnew, hfull, holdest⟩
    exact ⟨⟨other, outcome, hasked, hnew⟩, hfull, holdest⟩

theorem left_iff (ordered : Ordered calls s) (hplace : key ∈ s.cache.keys) :
    key ∉ (service.leave s call).cache.keys ↔
      call = .invalidate key ∨ call = .clear ∨ Displaces (service.view s) calls call key := by
  cases hasked : call.asked? with
  | some asked =>
    obtain ⟨other, outcome⟩ := asked
    rw [keys_of_asked hasked, not_mem_cons_others_iff ordered.recent ordered.size_le hplace,
      ← displaces_iff hasked]
    have hinvalidate : call ≠ .invalidate key := by rintro rfl; cases hasked
    have hclear : call ≠ .clear := by rintro rfl; cases hasked
    simp only [hinvalidate, hclear, false_or]
  | none =>
    have hdisplaces : ¬Displaces (service.view s) calls call key := by
      rintro ⟨⟨other, outcome, hasked', -⟩, -⟩
      rw [hasked] at hasked'
      cases hasked'
    simp only [hdisplaces, or_false]
    cases call with
    | get _ _ => cases hasked
    | getSure _ _ => cases hasked
    | peek other =>
      have hkeys : (service.leave s (.peek other)).cache.keys = s.cache.keys := rfl
      rw [hkeys]
      exact iff_of_false (not_not_intro hplace) (by rintro (h | h) <;> cases h)
    | invalidate other =>
      have hkeys : (service.leave s (.invalidate other)).cache.keys =
          s.cache.keys.filter (· ≠ other) := keys_invalidate s.cache other
      rw [hkeys, List.mem_filter, and_iff_right hplace, decide_eq_true_iff, not_not]
      constructor
      · rintro rfl
        exact .inl rfl
      · rintro (h | h) <;> cases h
        rfl
    | clear => exact iff_of_true List.not_mem_nil (.inr rfl)

theorem capacity_leave (s : Session (Cache κ α) κ ε α) (call : Call κ ε α) :
    (service.leave s call).cache.capacity = s.cache.capacity := by
  cases hasked : call.asked? with
  | some asked =>
    obtain ⟨key, outcome⟩ := asked
    rw [cache_of_asked hasked]
    exact (getOrCompute_counters s.cache key outcome).1
  | none => exact (s.yields_of_not_asked hasked).capacity_eq

theorem capacity_after (c : Cache κ α) (calls : List (Call κ ε α)) :
    (service.after c calls).cache.capacity = c.capacity :=
  service.after_induct (P := fun _ s => s.cache.capacity = c.capacity) c rfl
    (fun _ s call ih => (s.capacity_leave call).trans ih) calls

theorem Ordered.nodup_keys (ordered : Ordered calls s) : s.cache.keys.Nodup :=
  ordered.recent.imp fun hlater heq => absurd (heq ▸ hlater) (Nat.lt_irrefl _)

end Session

theorem exact_seen {capacity : Nat} (h : 0 < capacity) (calls : List (Call κ ε α)) :
    Exact (service.seen (⟨capacity, h, [], 0, 0⟩ : Cache κ α)) calls capacity := by
  let c : Cache κ α := ⟨capacity, h, [], 0, 0⟩
  have ordered : Session.Ordered calls (service.after c calls) :=
    service.after_induct c ⟨List.Pairwise.nil, Nat.zero_le capacity⟩
      (fun _ _ call ih => ih.leave call) calls
  have counted : Session.Counted calls (service.after c calls) :=
    service.after_induct c ⟨rfl, rfl⟩ (fun _ _ call ih => ih.leave call) calls
  have hkept := Session.peek?_after (rfl : c.slots = []) calls
  have hcapacity := Session.capacity_after c calls
  have hseen : ∀ call, service.seen c (calls ++ [call]) =
      service.view (service.leave (service.after c calls) call) := by
    intro call
    rw [Service.seen, Service.after_concat]
  constructor
  case nodup_keys => exact ordered.nodup_keys
  case size_eq => exact (service.after c calls).cache.length_keys.symm
  case size_le => exact Nat.le_trans ordered.size_le (Nat.le_of_eq hcapacity)
  case capacity_eq => exact hcapacity
  case found =>
    intro call key outcome value hasked hvalue
    rw [hseen]
    exact Session.asks_service.hit hasked ((hkept key value).2 hvalue)
  case computed =>
    intro call key outcome hasked hnone
    rw [hseen]
    apply Session.asks_service.miss hasked
    rw [Option.eq_none_iff_forall_ne_some]
    exact fun value hvalue => hnone ⟨value, (hkept key value).1 hvalue⟩
  case peeked =>
    intro key
    refine ⟨⟨_, rfl, hkept key⟩, fun later => ?_⟩
    rw [Service.seen, Service.after_append, Service.seen, Service.after_append]
    rfl
  case entered_iff =>
    intro call key hplace
    rw [hseen]
    exact Session.entered_iff hplace
  case left_iff =>
    intro call key hplace
    rw [hseen]
    exact Session.left_iff ordered hplace
  case hits_add_misses => exact counted.hits_add_misses
  case misses_eq => exact counted.misses_eq

end SkipChain.Cache
