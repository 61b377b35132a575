import SkipChain.Cache.Call
/-!
A cache whose values stand in slots, apart from the map that finds them. The map keeps the keys used
most recently, each with the number of its slot. It is given, and known only by its laws.
-/
namespace SkipChain

structure LruMap (κ σ : Type) where
  Map : Type
  new : (capacity : Nat) → 0 < capacity → Map
  /-- What a key has, or else has from now on. -/
  getOrInsert : Map → κ → σ → σ × Map
  peek? : Map → κ → Option σ
  pop : Map → κ → Option σ × Map
  clear : Map → Map
  len : Map → Nat
  cap : Map → Nat
  /-- The entries, the one used last in front. -/
  iter : Map → List (κ × σ)

/-- What is documented of the map. A key that gets something, or gets something inserted, comes to
the front. A new key takes the place of the one used longest ago when the map is full. -/
structure LruMap.Lawful {κ σ : Type} [DecidableEq κ] (L : LruMap κ σ) : Prop where
  iter_new : ∀ capacity h, L.iter (L.new capacity h) = []
  cap_new : ∀ capacity h, L.cap (L.new capacity h) = capacity
  peek?_eq : ∀ map key, L.peek? map key = (L.iter map).lookup key
  len_eq : ∀ map, L.len map = (L.iter map).length
  getOrInsert_found : ∀ map key x found, L.peek? map key = some found →
    (L.getOrInsert map key x).1 = found ∧
      L.iter (L.getOrInsert map key x).2 = (key, found) :: (L.iter map).filter (·.1 ≠ key)
  getOrInsert_new : ∀ map key x, L.peek? map key = none →
    (L.getOrInsert map key x).1 = x ∧
      L.iter (L.getOrInsert map key x).2 =
        (key, x) :: if L.len map < L.cap map then L.iter map else (L.iter map).dropLast
  cap_getOrInsert : ∀ map key x, L.cap (L.getOrInsert map key x).2 = L.cap map
  pop_fst : ∀ map key, (L.pop map key).1 = L.peek? map key
  iter_pop : ∀ map key, L.iter (L.pop map key).2 = (L.iter map).filter (·.1 ≠ key)
  cap_pop : ∀ map key, L.cap (L.pop map key).2 = L.cap map
  iter_clear : ∀ map, L.iter (L.clear map) = []
  cap_clear : ∀ map, L.cap (L.clear map) = L.cap map

/-- A cache over the map. A slot has a value once that has been computed. -/
structure LazyCache {κ : Type} (L : LruMap κ Nat) (α : Type) where
  map : L.Map
  /-- All slots there have been. Those that the map has given up are found by no key. -/
  slots : List (Option α)
  hits : Nat
  misses : Nat

namespace LazyCache

open Cache (Service)

variable {κ α ε : Type} {L : LruMap κ Nat} {m : Type → Type} [Monad m]

def withCapacity (L : LruMap κ Nat) (capacity : Nat) : Except CacheError (LazyCache L α) :=
  if h : 0 < capacity then .ok ⟨L.new capacity h, [], 0, 0⟩ else .error .zeroCapacity

def read (c : LazyCache L α) (slot : Nat) : Option α := c.slots[slot]?.join

def write (c : LazyCache L α) (slot : Nat) (value : α) : LazyCache L α :=
  { c with slots := c.slots.set slot (some value) }

/-- The slot of a key that is asked for, an empty one if the key is new. -/
def enter (c : LazyCache L α) (key : κ) : Nat × LazyCache L α :=
  let fresh := c.slots.length
  let (slot, map) := L.getOrInsert c.map key fresh
  (slot, { c with map := map, slots := if slot = fresh then c.slots ++ [none] else c.slots })

def getOrTryCompute (c : LazyCache L α) (key : κ) (compute : m (Except ε α)) :
    m (Except ε α × LazyCache L α) := do
  let (slot, c) := c.enter key
  match c.read slot with
  | some value => return (.ok value, { c with hits := c.hits + 1 })
  | none =>
    let c := { c with misses := c.misses + 1 }
    match ← compute with
    | .ok value => return (.ok value, c.write slot value)
    | .error e => return (.error e, c)

def getOrCompute (c : LazyCache L α) (key : κ) (compute : m α) : m (α × LazyCache L α) := do
  match ← c.getOrTryCompute key (Except.ok <$> compute : m (Except Empty α)) with
  | (.ok value, c) => return (value, c)

def peek? (c : LazyCache L α) (key : κ) : Option α := do
  let slot ← L.peek? c.map key
  c.read slot

def invalidate (c : LazyCache L α) (key : κ) : Bool × LazyCache L α :=
  let (slot, map) := L.pop c.map key
  (slot.isSome, { c with map := map })

def clear (c : LazyCache L α) : LazyCache L α := { c with map := L.clear c.map }

def stats (c : LazyCache L α) : CacheStats := ⟨c.hits, c.misses, L.len c.map, L.cap c.map⟩

def service (L : LruMap κ Nat) : Service (LazyCache L α) κ ε α where
  get := getOrTryCompute
  getSure := getOrCompute
  peek? := peek?
  invalidate := invalidate
  clear := clear
  keys := fun c => (L.iter c.map).map Prod.fst
  stats := stats

end LazyCache

end SkipChain
