import SkipChain.Bytes
/-!
The cyclic redundancy check CRC-32/ISO-HDLC, bit by bit.
-/
namespace SkipChain.Crc32

/-- The generator polynomial with its lowest coefficient in the highest bit. -/
def polynomial : UInt32 := 0xEDB88320

def shift (r : UInt32) : UInt32 :=
  if r &&& 1 = 0 then r >>> 1 else (r >>> 1) ^^^ polynomial

def shifts : Nat → UInt32 → UInt32
  | 0, r => r
  | n + 1, r => shifts n (shift r)

def step (r : UInt32) (b : UInt8) : UInt32 := shifts 8 (r ^^^ b.toUInt32)

def checksum (bytes : Bytes) : UInt32 := bytes.foldl step 0xFFFFFFFF ^^^ 0xFFFFFFFF

-- the check value of this code: the checksum of the digits from 1 to 9
example : checksum [0x31, 0x32, 0x33, 0x34, 0x35, 0x36, 0x37, 0x38, 0x39] = 0xCBF43926 := by
  decide +kernel

end SkipChain.Crc32
