import SkipChain.Bytes
/-!
UTF-8: characters as one to four bytes. Reading finds the longest well-formed beginning of a byte
string, so a malformed text is refused with the place where it stops being text.
-/
namespace SkipChain.Utf8

def encodeChar (c : Char) : Bytes :=
  let n := c.toNat
  if n < 0x80 then [UInt8.ofNat n]
  else if n < 0x800 then [UInt8.ofNat (0xC0 + n / 64), UInt8.ofNat (0x80 + n % 64)]
  else if n < 0x10000 then
    [UInt8.ofNat (0xE0 + n / 4096), UInt8.ofNat (0x80 + n / 64 % 64), UInt8.ofNat (0x80 + n % 64)]
  else
    [UInt8.ofNat (0xF0 + n / 262144), UInt8.ofNat (0x80 + n / 4096 % 64),
      UInt8.ofNat (0x80 + n / 64 % 64), UInt8.ofNat (0x80 + n % 64)]

def encode (s : String) : Bytes := s.toList.flatMap encodeChar

theorem encode_append (s t : String) : encode (s ++ t) = encode s ++ encode t := by
  rw [encode, String.toList_append, List.flatMap_append, encode, encode]

/-- What the first byte of a character says of the rest: how many bytes follow, between which
bounds the first of them lies, and the high bits of the code point. -/
structure Lead where
  tails : Nat
  low : Nat
  high : Nat
  bits : Nat

/-- The bounds on the second byte exclude code points that have a shorter form, surrogates, and
code points above U+10FFFF. -/
def Lead.ofByte? (byte : UInt8) : Option Lead :=
  let b := byte.toNat
  if b < 0x80 then some ⟨0, 0x80, 0xBF, b⟩
  else if b < 0xC2 then none
  else if b < 0xE0 then some ⟨1, 0x80, 0xBF, b - 0xC0⟩
  else if b = 0xE0 then some ⟨2, 0xA0, 0xBF, 0⟩
  else if b = 0xED then some ⟨2, 0x80, 0x9F, 0xD⟩
  else if b < 0xF0 then some ⟨2, 0x80, 0xBF, b - 0xE0⟩
  else if b = 0xF0 then some ⟨3, 0x90, 0xBF, 0⟩
  else if b < 0xF4 then some ⟨3, 0x80, 0xBF, b - 0xF0⟩
  else if b = 0xF4 then some ⟨3, 0x80, 0x8F, 4⟩
  else none

inductive Step where
  | char (c : Char) (rest : Bytes)
  | malformed (rest : Bytes)

/-- Read `left` more bytes of a character, the first of them between `low` and `high`. A malformed
part ends before the first byte that cannot continue it. -/
def tails : (left low high code : Nat) → Bytes → Step
  | 0, _, _, code, rest => .char (Char.ofNat code) rest
  | _ + 1, _, _, _, [] => .malformed []
  | left + 1, low, high, code, b :: rest =>
    if low ≤ b.toNat ∧ b.toNat ≤ high then
      tails left 0x80 0xBF (64 * code + (b.toNat - 0x80)) rest
    else .malformed (b :: rest)

def step (b : UInt8) (rest : Bytes) : Step :=
  match Lead.ofByte? b with
  | none => .malformed rest
  | some lead => tails lead.tails lead.low lead.high lead.bits rest

/-- The characters of the longest well-formed beginning of `bytes` of at most `fuel` characters,
and what follows it. -/
def splitValid : (fuel : Nat) → (bytes : Bytes) → List Char × Bytes
  | 0, bytes => ([], bytes)
  | _ + 1, [] => ([], [])
  | fuel + 1, b :: bytes =>
    match step b bytes with
    | .malformed _ => ([], b :: bytes)
    | .char c rest =>
      let (cs, left) := splitValid fuel rest
      (c :: cs, left)

/-- The text that `bytes` spell, or the length of their longest well-formed beginning. -/
def decode (bytes : Bytes) : Except Nat String :=
  match splitValid bytes.length bytes with
  | (cs, []) => .ok (String.ofList cs)
  | (_, left) => .error (bytes.length - left.length)

/-- The characters of `bytes`, with U+FFFD for each malformed part. -/
def replaceMalformed : (fuel : Nat) → (bytes : Bytes) → List Char
  | 0, _ => []
  | _ + 1, [] => []
  | fuel + 1, b :: bytes =>
    match step b bytes with
    | .malformed rest => Char.ofNat 0xFFFD :: replaceMalformed fuel rest
    | .char c rest => c :: replaceMalformed fuel rest

def decodeLossy (bytes : Bytes) : String :=
  String.ofList (replaceMalformed bytes.length bytes)

end SkipChain.Utf8
