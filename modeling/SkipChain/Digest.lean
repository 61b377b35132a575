import SkipChain.ValueError
/-!
Hash values of 32 bytes. The all-zero value stands for the row before the first.
-/
namespace SkipChain

structure Digest where
  bytes : Bytes
  length_bytes : bytes.length = 32
  deriving DecidableEq

abbrev Hash := Bytes → Digest

namespace Digest

def width : Nat := 32

/-- The hash value of row 0, which no input is ever recorded for. -/
def sentinel : Digest := ⟨List.replicate 32 0, List.length_replicate⟩

instance : Inhabited Digest := ⟨sentinel⟩

def ofBytes (bytes : Bytes) : Except ValueError Digest :=
  if h : bytes.length = 32 then .ok ⟨bytes, h⟩ else .error (.length width bytes.length)

def ofHex (text : String) : Except ValueError Digest :=
  match Bytes.ofHex text with
  | .error cause => .error (.hex cause)
  | .ok bytes => ofBytes bytes

def toHex (d : Digest) : String := Bytes.toHex d.bytes

def shortHex (d : Digest) : String := Bytes.toHex (d.bytes.take 4)

/-- The form for logs, which names the type and shows the first four bytes. -/
def debug (d : Digest) : String := s!"Digest({d.shortHex})"

instance : ToString Digest := ⟨toHex⟩

end Digest

end SkipChain
