import SkipChain.Wire.Decoder
import SkipChain.Word
/-!
Variable-length numbers in words of 64 bits, by masks and shifts, byte by byte. Where a shift is too
far there is no result.
-/
namespace SkipChain.Checked

/-- Read the bytes of a number that starts at `start`, from the one on whose low bits belong at
`shift`. `value` has the bits of the bytes before it. -/
def varintFrom (start value shift offset : Nat) :
    Bytes → Option (EStateM.Result ValueError Cursor Nat)
  | [] => some (.error (.varint start .truncated) ⟨offset, []⟩)
  | b :: rest =>
    if shift = 63 ∧ 1 < b then some (.error (.varint start .overflow) ⟨offset + 1, rest⟩)
    else do
      let value := value ||| (← Word.shiftLeft? (b &&& 0x7F).toNat shift)
      if b &&& 0x80 = 0 then return .ok value ⟨offset + 1, rest⟩
      else if 63 < shift + 7 then return .error (.varint start .overflow) ⟨offset + 1, rest⟩
      else varintFrom start value (shift + 7) (offset + 1) rest

def varint (c : Cursor) : Option (EStateM.Result ValueError Cursor Nat) :=
  varintFrom c.offset 0 0 c.offset c.rest

def putVarint (word : Nat) : Bytes :=
  let low := UInt8.ofNat (word &&& 0x7F)
  if word >>> 7 = 0 then [low] else (low ||| 0x80) :: putVarint (word >>> 7)
termination_by word
decreasing_by
  rw [Nat.shiftRight_eq_div_pow] at *
  omega

end SkipChain.Checked
