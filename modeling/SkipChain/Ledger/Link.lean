import SkipChain.Digest
/-!
The hash of a row: it covers the row's input hash and the hashes of the rows it links to.
-/
namespace SkipChain

/-- The bytes that a row's hash is taken over: its input hash, then the hashes of the rows it links
to, nearest first. -/
def linkPreimage (input : Digest) (references : List Digest) : Bytes :=
  input.bytes ++ references.flatMap Digest.bytes

def Hash.link (H : Hash) (input : Digest) (references : List Digest) : Digest :=
  H (linkPreimage input references)

end SkipChain
