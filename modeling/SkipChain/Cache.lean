/-!
A cache of computed values that keeps the keys asked for most recently. A key takes up its place
before its value is computed, so a failed computation leaves a place without a value.
-/
namespace SkipChain

inductive CacheError where
  | zeroCapacity
  deriving DecidableEq, Repr

def CacheError.message : CacheError → String
  | zeroCapacity => "cache capacity must be at least 1"

structure CacheStats where
  hits : Nat
  misses : Nat
  size : Nat
  capacity : Nat
  deriving DecidableEq, Repr

/-- A cache from `κ` to `α`. The keys stand in the order in which they were last asked for, the
latest first, each with its value if that has been computed. -/
structure Cache (κ α : Type) where
  capacity : Nat
  capacity_pos : 0 < capacity
  slots : List (κ × Option α)
  hits : Nat
  misses : Nat

namespace Cache

variable {κ α ε : Type} [DecidableEq κ]

def new (capacity : Nat) : Except CacheError (Cache κ α) :=
  if h : 0 < capacity then .ok ⟨capacity, h, [], 0, 0⟩ else .error .zeroCapacity

def size (c : Cache κ α) : Nat := c.slots.length

def stats (c : Cache κ α) : CacheStats := ⟨c.hits, c.misses, c.size, c.capacity⟩

def peek? (c : Cache κ α) (key : κ) : Option α := (c.slots.lookup key).join

/-- Move a key to the front. A new key takes the place of the last one when the cache is full. -/
def touch (c : Cache κ α) (key : κ) : Cache κ α :=
  match c.slots.lookup key with
  | some value => { c with slots := (key, value) :: c.slots.filter (·.1 ≠ key) }
  | none =>
    let kept := if c.size < c.capacity then c.slots else c.slots.dropLast
    { c with slots := (key, none) :: kept }

def store (c : Cache κ α) (key : κ) (value : α) : Cache κ α :=
  { c with slots := c.slots.map fun s => if s.1 = key then (key, some value) else s }

/-- The value of a key: the one found, or else the one computed, which is kept unless the
computation fails. -/
def getOrCompute (c : Cache κ α) (key : κ) (compute : Unit → Except ε α) :
    Except ε α × Cache κ α :=
  let found := c.peek? key
  let c := c.touch key
  match found with
  | some value => (.ok value, { c with hits := c.hits + 1 })
  | none =>
    let c := { c with misses := c.misses + 1 }
    match compute () with
    | .ok value => (.ok value, c.store key value)
    | .error e => (.error e, c)

def invalidate (c : Cache κ α) (key : κ) : Bool × Cache κ α :=
  ((c.slots.lookup key).isSome, { c with slots := c.slots.filter (·.1 ≠ key) })

def clear (c : Cache κ α) : Cache κ α := { c with slots := [] }

end Cache

end SkipChain
