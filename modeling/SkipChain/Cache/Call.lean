import SkipChain.Cache
/-!
Calls on a cache, one after another. A computation makes no calls of its own on the cache, and has
an effect only where a call runs it: what it gives is written to a log, and so the log tells which
computations have been run.
-/
namespace SkipChain.Cache

variable {σ κ α ε : Type}

/-- The computations that have been run, the latest first, each with its key and what it gave. -/
abbrev Log (κ ε α : Type) := List (κ × Except ε α)

def computation (key : κ) (outcome : Except ε α) : StateM (Log κ ε α) (Except ε α) := do
  modify ((key, outcome) :: ·)
  return outcome

def sureComputation (key : κ) (value : α) : StateM (Log κ ε α) α := do
  modify ((key, .ok value) :: ·)
  return value

/-- A call that asks for a key comes with what the computation gives if it is run. -/
inductive Call (κ ε α : Type) where
  | get (key : κ) (outcome : Except ε α)
  | getSure (key : κ) (value : α)
  | peek (key : κ)
  | invalidate (key : κ)
  | clear

inductive Answer (ε α : Type) where
  | got (outcome : Except ε α)
  | seen (value : Option α)
  | invalidated (found : Bool)
  | cleared

structure Session (σ κ ε α : Type) where
  cache : σ
  log : Log κ ε α

/-- What can be seen of a cache in use between two calls, with what it would answer to the next. -/
structure View (κ ε α : Type) where
  keys : List κ
  stats : CacheStats
  log : Log κ ε α
  answer : Call κ ε α → Answer ε α

structure Service (σ κ ε α : Type) where
  get : σ → κ → StateM (Log κ ε α) (Except ε α) → StateM (Log κ ε α) (Except ε α × σ)
  getSure : σ → κ → StateM (Log κ ε α) α → StateM (Log κ ε α) (α × σ)
  peek? : σ → κ → Option α
  invalidate : σ → κ → Bool × σ
  clear : σ → σ
  /-- The keys that have a place. -/
  keys : σ → List κ
  stats : σ → CacheStats

namespace Service

variable (service : Service σ κ ε α)

def perform (s : Session σ κ ε α) : Call κ ε α → Answer ε α × Session σ κ ε α
  | .get key outcome =>
    let ((outcome, c), log) := (service.get s.cache key (computation key outcome)).run s.log
    (.got outcome, ⟨c, log⟩)
  | .getSure key value =>
    let ((value, c), log) := (service.getSure s.cache key (sureComputation key value)).run s.log
    (.got (.ok value), ⟨c, log⟩)
  | .peek key => (.seen (service.peek? s.cache key), s)
  | .invalidate key =>
    let (found, c) := service.invalidate s.cache key
    (.invalidated found, { s with cache := c })
  | .clear => (.cleared, { s with cache := service.clear s.cache })

def answer (s : Session σ κ ε α) (call : Call κ ε α) : Answer ε α := (service.perform s call).1

def leave (s : Session σ κ ε α) (call : Call κ ε α) : Session σ κ ε α :=
  (service.perform s call).2

def after (c : σ) (calls : List (Call κ ε α)) : Session σ κ ε α := calls.foldl service.leave ⟨c, []⟩

def view (s : Session σ κ ε α) : View κ ε α :=
  ⟨service.keys s.cache, service.stats s.cache, s.log, service.answer s⟩

def seen (c : σ) (calls : List (Call κ ε α)) : View κ ε α := service.view (service.after c calls)

end Service

variable [DecidableEq κ] {m : Type → Type} [Monad m]

/-- The keys that have a place, the one asked for last in front. -/
def keys (c : Cache κ α) : List κ := c.slots.map Prod.fst

/-- `getOrCompute`, with a computation that has effects where it is run. -/
def getOrRun (c : Cache κ α) (key : κ) (compute : m (Except ε α)) :
    m (Except ε α × Cache κ α) :=
  let found := c.peek? key
  let c := c.touch key
  match found with
  | some value => return (.ok value, { c with hits := c.hits + 1 })
  | none => do
    let c := { c with misses := c.misses + 1 }
    match ← compute with
    | .ok value => return (.ok value, c.store key value)
    | .error e => return (.error e, c)

def getOrRunSure (c : Cache κ α) (key : κ) (compute : m α) : m (α × Cache κ α) := do
  match ← c.getOrRun key (Except.ok <$> compute : m (Except Empty α)) with
  | (.ok value, c) => return (value, c)

def service : Service (Cache κ α) κ ε α where
  get := getOrRun
  getSure := getOrRunSure
  peek? := peek?
  invalidate := invalidate
  clear := clear
  keys := keys
  stats := stats

end SkipChain.Cache
