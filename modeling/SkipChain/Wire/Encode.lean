import SkipChain.Bytes.Utf8
/-!
Writing the parts of encoded data: variable-length numbers, blocks of bytes with their length in
front, texts, and tagged sections.
-/
namespace SkipChain.Wire

/-- The low seven bits of a number a byte, lowest first, with the high bit set on every byte but
the last; at most `fuel + 1` bytes. -/
def varintWithin : (fuel n : Nat) → Bytes
  | 0, n => [UInt8.ofNat n]
  | fuel + 1, n =>
    if n < 128 then [UInt8.ofNat n]
    else UInt8.ofNat (n % 128 + 128) :: varintWithin fuel (n / 128)

def varint (n : Nat) : Bytes := varintWithin n n

def block (bytes : Bytes) : Bytes := varint bytes.length ++ bytes

def text (s : String) : Bytes := block (Utf8.encode s)

def optionalText : Option String → Bytes
  | none => [0]
  | some s => 1 :: text s

def tagged (tag : UInt8) (body : Bytes) : Bytes := tag :: block body

end SkipChain.Wire
