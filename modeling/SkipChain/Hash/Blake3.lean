import SkipChain.Digest
/-!
BLAKE3 in its plain hash mode: chunks of 1024 bytes are hashed block by block, and the chunks are
the leaves of a binary tree whose left subtrees hold a power of two of them.
-/
namespace SkipChain.Blake3

structure Quad where
  x0 : UInt32
  x1 : UInt32
  x2 : UInt32
  x3 : UInt32

namespace Quad

def zipWith (f : UInt32 → UInt32 → UInt32) (p q : Quad) : Quad :=
  ⟨f p.x0 q.x0, f p.x1 q.x1, f p.x2 q.x2, f p.x3 q.x3⟩

def rotate (q : Quad) : Quad := ⟨q.x1, q.x2, q.x3, q.x0⟩

def xorRotr (n : UInt32) : Quad → Quad → Quad :=
  zipWith fun x y => let z := x ^^^ y; (z >>> n) ||| (z <<< (32 - n))

end Quad

/-- The sixteen words of a state as four rows; a column runs through all of them. -/
structure State where
  a : Quad
  b : Quad
  c : Quad
  d : Quad

def State.half (s : State) (m : Quad) (n k : UInt32) : State :=
  let a := (s.a.zipWith (· + ·) s.b).zipWith (· + ·) m
  let d := Quad.xorRotr n s.d a
  let c := s.c.zipWith (· + ·) d
  let b := Quad.xorRotr k s.b c
  ⟨a, b, c, d⟩

def State.mix (s : State) (m n : Quad) : State := (s.half m 16 12).half n 8 7

def State.skew (s : State) : State := ⟨s.a, s.b.rotate, s.c.rotate.rotate, s.d.rotate.rotate.rotate⟩

def State.unskew (s : State) : State := ⟨s.a, s.b.rotate.rotate.rotate, s.c.rotate.rotate, s.d.rotate⟩

def pick (ws : List UInt32) (i j k l : Nat) : Quad :=
  ⟨ws.getD i 0, ws.getD j 0, ws.getD k 0, ws.getD l 0⟩

def State.round (s : State) (m : List UInt32) : State :=
  (((s.mix (pick m 0 2 4 6) (pick m 1 3 5 7)).skew).mix
    (pick m 8 10 12 14) (pick m 9 11 13 15)).unskew

def permutation : List Nat := [2, 6, 3, 10, 7, 0, 4, 13, 1, 11, 12, 5, 9, 14, 15, 8]

def State.rounds : (n : Nat) → State → List UInt32 → State
  | 0, s, _ => s
  | n + 1, s, m => rounds n (s.round m) (permutation.map fun i => m.getD i 0)

structure Chain where
  low : Quad
  high : Quad

def Chain.initial : Chain :=
  ⟨⟨0x6a09e667, 0xbb67ae85, 0x3c6ef372, 0xa54ff53a⟩,
    ⟨0x510e527f, 0x9b05688c, 0x1f83d9ab, 0x5be0cd19⟩⟩

def Quad.toList (q : Quad) : List UInt32 := [q.x0, q.x1, q.x2, q.x3]

def Chain.toList (c : Chain) : List UInt32 := c.low.toList ++ c.high.toList

def chunkStart : UInt32 := 1

def chunkEnd : UInt32 := 2

def parent : UInt32 := 4

def root : UInt32 := 8

/-- A last step of hashing that has not been taken: what it starts from, its block of sixteen
words, the number of its chunk, the length of its block in bytes, and its flags. -/
structure Node where
  chain : Chain
  block : List UInt32
  counter : Nat
  length : Nat
  flags : UInt32

def Node.chainingValue (n : Node) : Chain :=
  let s := State.rounds 7
    ⟨n.chain.low, n.chain.high, Chain.initial.low,
      ⟨UInt32.ofNat n.counter, UInt32.ofNat (n.counter >>> 32), UInt32.ofNat n.length, n.flags⟩⟩
    n.block
  ⟨s.a.zipWith (· ^^^ ·) s.c, s.b.zipWith (· ^^^ ·) s.d⟩

def words : Bytes → List UInt32
  | [] => []
  | [a] => [a.toUInt32]
  | [a, b] => [a.toUInt32 ||| (b.toUInt32 <<< 8)]
  | [a, b, c] => [a.toUInt32 ||| (b.toUInt32 <<< 8) ||| (c.toUInt32 <<< 16)]
  | a :: b :: c :: d :: rest =>
    (a.toUInt32 ||| (b.toUInt32 <<< 8) ||| (c.toUInt32 <<< 16) ||| (d.toUInt32 <<< 24)) :: words rest

/-- The last block of a chunk, after `n` full blocks before it. -/
def chunkFrom (counter : Nat) : (n : Nat) → (chain : Chain) → (flags : UInt32) → Bytes → Node
  | 0, chain, flags, bytes => ⟨chain, words bytes, counter, bytes.length, flags ||| chunkEnd⟩
  | n + 1, chain, flags, bytes =>
    let node : Node := ⟨chain, words (bytes.take 64), counter, 64, flags⟩
    chunkFrom counter n node.chainingValue 0 (bytes.drop 64)

def chunk (counter : Nat) (bytes : Bytes) : Node :=
  chunkFrom counter ((bytes.length - 1) / 64) .initial chunkStart bytes

def Node.join (l r : Node) : Node :=
  ⟨.initial, l.chainingValue.toList ++ r.chainingValue.toList, 0, 64, parent⟩

/-- The tree over the chunks from `counter` on, of height at most `height`. More than one chunk are
split so that the left part is the greatest power of two of chunks that leaves something over. -/
def tree : (height : Nat) → (counter : Nat) → Bytes → Node
  | 0, counter, bytes => chunk counter bytes
  | height + 1, counter, bytes =>
    if bytes.length ≤ 1024 then chunk counter bytes
    else
      let left := 1 <<< Nat.log2 ((bytes.length - 1) / 1024)
      (tree height counter (bytes.take (1024 * left))).join
        (tree height (counter + left) (bytes.drop (1024 * left)))

def wordBytes (w : UInt32) : Bytes := (Bytes.bigEndian 4 w.toNat).reverse

def Quad.bytes (q : Quad) : Bytes :=
  wordBytes q.x0 ++ wordBytes q.x1 ++ wordBytes q.x2 ++ wordBytes q.x3

def hash (message : Bytes) : Digest :=
  let top := tree (Nat.log2 message.length) 0 message
  let value := Node.chainingValue { top with counter := 0, flags := top.flags ||| root }
  ⟨value.low.bytes ++ value.high.bytes, by simp [Quad.bytes, wordBytes]⟩

end SkipChain.Blake3
