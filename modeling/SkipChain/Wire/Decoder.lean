import SkipChain.Bytes.Utf8
import SkipChain.Digest
/-!
Reading encoded data from a cursor. A read that fails leaves the cursor after the bytes it has
consumed, so what was read before a failure stays read.
-/
namespace SkipChain

/-- A place in a byte string: how many bytes lie behind it, and the bytes ahead. -/
structure Cursor where
  offset : Nat
  rest : Bytes
  deriving DecidableEq

def Cursor.start (bytes : Bytes) : Cursor := ⟨0, bytes⟩

abbrev Decoder (ε α : Type) := EStateM ε Cursor α

namespace Decoder

def eval {ε α : Type} (read : Decoder ε α) (bytes : Bytes) : Except ε α :=
  match read.run (.start bytes) with
  | .ok a _ => .ok a
  | .error e _ => .error e

def mapError {ε δ α : Type} (f : ε → δ) (read : Decoder ε α) : Decoder δ α := fun c =>
  match read c with
  | .ok a c => .ok a c
  | .error e c => .error (f e) c

def offset {ε : Type} : Decoder ε Nat := fun c => .ok c.offset c

def remaining {ε : Type} : Decoder ε Nat := fun c => .ok c.rest.length c

def take (n : Nat) : Decoder ValueError Bytes := fun c =>
  let taken := c.rest.take n
  if taken.length < n then .error (.truncated c.offset n c.rest.length) c
  else .ok taken ⟨c.offset + n, c.rest.drop n⟩

def takeRest {ε : Type} : Decoder ε Bytes := fun c =>
  .ok c.rest ⟨c.offset + c.rest.length, []⟩

def byte : Decoder ValueError UInt8 := fun c =>
  match c.rest with
  | [] => .error (.truncated c.offset 1 0) c
  | b :: rest => .ok b ⟨c.offset + 1, rest⟩

def bigEndian (width : Nat) : Decoder ValueError Nat := do
  return Bytes.toNat (← take width)

def word64 : Decoder ValueError UInt64 := do
  return UInt64.ofNat (← bigEndian 8)

def int64 : Decoder ValueError Int64 := do
  return (← word64).toInt64

def digest : Decoder ValueError Digest := fun c =>
  if h : (c.rest.take 32).length = 32 then .ok ⟨c.rest.take 32, h⟩ ⟨c.offset + 32, c.rest.drop 32⟩
  else .error (.truncated c.offset Digest.width c.rest.length) c

/-- Up to `left` more bytes of a variable-length number that starts at `start`; the next byte
counts multiples of `place`, and the bytes before it make `low`. The last byte that may come is the
tenth, and it has one bit. -/
def varintFrom (start : Nat) : (left place low : Nat) → Decoder ValueError Nat
  | 0, _, _, c => .error (.varint start .overflow) c
  | left + 1, place, low, c =>
    match c.rest with
    | [] => .error (.varint start .truncated) c
    | b :: rest =>
      let c := ⟨c.offset + 1, rest⟩
      let value := low + b.toNat % 128 * place
      if left = 0 ∧ 1 < b.toNat then .error (.varint start .overflow) c
      else if b.toNat < 128 then .ok value c
      else varintFrom start left (128 * place) value c

def varint : Decoder ValueError Nat := fun c => varintFrom c.offset 10 1 0 c

def count (limit : Nat) : Decoder ValueError Nat := do
  let start ← offset
  let n ← varint
  if limit < n then throw (.lengthLimit start n limit)
  return n

/-- A byte string after its length. The length is held against what remains before it is read. -/
def block : Decoder ValueError Bytes := do
  take (← count (← remaining))

def text : Decoder ValueError String := do
  let start ← offset
  match Utf8.decode (← block) with
  | .ok s => return s
  | .error _ => throw (.utf8 start)

def replicate {ε α : Type} (read : Decoder ε α) : Nat → Decoder ε (List α)
  | 0 => return []
  | n + 1 => do
    let a ← read
    return a :: (← replicate read n)

end Decoder

end SkipChain
