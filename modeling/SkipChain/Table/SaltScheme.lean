import SkipChain.Ascending.Set
import SkipChain.Wire.Decoder
import SkipChain.Wire.Encode
import SkipChain.Word
/-!
Which columns of a ledger's rows carry salted cells.
-/
namespace SkipChain

structure ColumnSet where
  columns : NatSet
  bounded : ∀ c ∈ columns, c < Word.count32
  deriving DecidableEq

namespace ColumnSet

def empty : ColumnSet := ⟨.empty, fun _ h => absurd h List.not_mem_nil⟩

def insert (s : ColumnSet) (c : Nat) (h : c < Word.count32) : ColumnSet :=
  ⟨s.columns.insert c, fun k hk => by
    rcases NatSet.mem_insert.1 hk with rfl | hk
    · exact h
    · exact s.bounded k hk⟩

def ofList (cs : List UInt32) : ColumnSet :=
  cs.foldl (fun s c => s.insert c.toNat c.toNat_lt) empty

end ColumnSet

inductive SaltScheme where
  | allSalted
  | noneSalted
  /-- All columns but the listed ones. -/
  | unsalted (columns : ColumnSet)
  deriving DecidableEq

namespace SaltScheme

instance : Inhabited SaltScheme := ⟨noneSalted⟩

def isSalted : SaltScheme → (column : Nat) → Bool
  | allSalted, _ => true
  | noneSalted, _ => false
  | unsalted cs, column => column ∉ cs.columns

def encode : SaltScheme → Bytes
  | allSalted => [0]
  | unsalted cs => 1 :: Wire.varint cs.columns.size ++ cs.columns.toList.flatMap Wire.varint
  | noneSalted => [2]

/-- Read `n` more columns into a set. They may come in any order, but none of them twice. -/
def decodeColumns : (n : Nat) → ColumnSet → Decoder ValueError ColumnSet
  | 0, cs => return cs
  | n + 1, cs => do
    let start ← Decoder.offset
    let column ← Decoder.varint
    if h : column < Word.count32 then
      if column ∈ cs.columns then throw (.duplicateSaltColumn start column)
      decodeColumns n (cs.insert column h)
    else throw (.lengthLimit start column (Word.count32 - 1))

/-- Read a scheme. A column takes at least one byte, so there are no more than bytes remain. -/
def decode : Decoder ValueError SaltScheme := do
  let mode ← Decoder.byte
  if mode = 0 then return allSalted
  else if mode = 2 then return noneSalted
  else if mode = 1 then
    let n ← Decoder.count (← Decoder.remaining)
    return unsalted (← decodeColumns n .empty)
  else throw (.saltMode mode)

end SaltScheme

end SkipChain
