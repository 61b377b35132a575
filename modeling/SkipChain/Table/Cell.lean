import SkipChain.Table.Column
import SkipChain.Wire.Decoder
import SkipChain.Wire.Encode
/-!
Typed cells with an optional salt, and their encoding: type code, flags, value, salt.
-/
namespace SkipChain

def Salt.width : Nat := 32

/-- Bytes mixed into the hash of a cell so that its value cannot be guessed from the hash. -/
structure Salt where
  bytes : Bytes
  length_bytes : bytes.length = Salt.width
  deriving DecidableEq

namespace Salt

def ofBytes (bytes : Bytes) : Except ValueError Salt :=
  if h : bytes.length = width then .ok ⟨bytes, h⟩ else .error (.saltLength width bytes.length)

def ofDigest (d : Digest) : Salt := ⟨d.bytes, d.length_bytes⟩

end Salt

inductive Value where
  | null
  /-- A hash that stands for a value not shown, or is itself the value. -/
  | hash (digest : Digest)
  | bytes (bytes : Bytes)
  | string (text : String)
  | long (number : Int64)
  /-- A floating-point number by its 64 bits. -/
  | double (bits : UInt64)
  /-- An instant, in milliseconds since 1970 began. -/
  | date (millis : Int64)
  deriving DecidableEq

namespace Value

def columnType : Value → ColumnType
  | null => .null
  | hash _ => .hash
  | bytes _ => .bytes
  | string _ => .string
  | long _ => .long
  | double _ => .double
  | date _ => .date

def isNaN : Value → Bool
  | double bits => 0x7FF0000000000000 < bits &&& 0x7FFFFFFFFFFFFFFF
  | _ => false

def int64Bytes (n : Int64) : Bytes := Bytes.bigEndian 8 n.toUInt64.toNat

/-- The bytes of a value as its hash is taken over them: no length in front. -/
def hashInput : Value → Bytes
  | null => []
  | hash d => d.bytes
  | bytes b => b
  | string s => Utf8.encode s
  | long n => int64Bytes n
  | double bits => Bytes.bigEndian 8 bits.toNat
  | date n => int64Bytes n

def encode : Value → Bytes
  | bytes b => Wire.block b
  | string s => Wire.text s
  | v => v.hashInput

def decode : ColumnType → Decoder ValueError Value
  | .null => return null
  | .hash => return hash (← Decoder.digest)
  | .bytes => return bytes (← Decoder.block)
  | .string => return string (← Decoder.text)
  | .long => return long (← Decoder.int64)
  | .double => return double (← Decoder.word64)
  | .date => return date (← Decoder.int64)

end Value

/-- Why a value and a salt do not make a cell: a number must be one, and a hash takes no salt. -/
def Cell.refusal? (value : Value) (salt : Option Salt) : Option ValueError :=
  if value.isNaN then some .nanDouble
  else if salt.isSome && !value.columnType.saltable then some .saltedHash
  else none

structure Cell where
  value : Value
  salt : Option Salt
  admitted : Cell.refusal? value salt = none
  deriving DecidableEq

namespace Cell

def make (value : Value) (salt : Option Salt) : Except ValueError Cell :=
  match h : refusal? value salt with
  | some e => .error e
  | none => .ok ⟨value, salt, h⟩

def ofString (s : String) : Cell := ⟨.string s, none, rfl⟩

def ofDigest (d : Digest) : Cell := ⟨.hash d, none, rfl⟩

def columnType (c : Cell) : ColumnType := c.value.columnType

def isSalted (c : Cell) : Bool := c.salt.isSome

def encode (c : Cell) : Bytes :=
  c.columnType.code :: (if c.isSalted then 1 else 0) :: c.value.encode
    ++ (c.salt.elim [] Salt.bytes)

def decodeSalt : Decoder ValueError Salt := do
  return Salt.ofDigest (← Decoder.digest)

/-- Read a cell. Only the lowest flag has a meaning; the others must be clear. -/
def decode : Decoder ValueError Cell := do
  match ColumnType.ofCode (← Decoder.byte) with
  | .error e => throw e
  | .ok type =>
    let flags ← Decoder.byte
    if 1 < flags then throw (.cellFlags flags)
    let value ← Value.decode type
    let salt ← if flags = 1 then some <$> decodeSalt else pure none
    match make value salt with
    | .error e => throw e
    | .ok cell => return cell

/-- The hash of a cell: the digest that a hash cell carries, else the hash of value and salt. -/
def hash (H : Hash) (c : Cell) : Digest :=
  match c.value with
  | .hash d => d
  | value => H (value.hashInput ++ c.salt.elim [] Salt.bytes)

def redact (H : Hash) (c : Cell) : Cell := ofDigest (c.hash H)

@[simp] theorem hash_redact (H : Hash) (c : Cell) : (c.redact H).hash H = c.hash H := rfl

end Cell

end SkipChain
