import SkipChain.Bytes
import SkipChain.Bytes.Utf8
import SkipChain.Text.Quoted
/-!
Byte strings as hexadecimal text: two digits a byte, written in lowercase and read in either case.
-/
namespace SkipChain

/-- Why a text is not hexadecimal. Positions count bytes of the text. -/
inductive HexError where
  | oddLength
  | notADigit (byte : UInt8) (position : Nat)
  deriving DecidableEq, Repr

namespace HexError

/-- A byte that is no digit is shown as the character with its number. -/
def message : HexError → String
  | oddLength => "Odd number of digits"
  | notADigit byte position =>
    s!"Invalid character {Text.quotedChar (Char.ofNat byte.toNat)} at position {position}"

end HexError

namespace Bytes

def hexDigit (n : Nat) : Char := Nat.digitChar n

def toHex (bytes : Bytes) : String :=
  String.ofList (bytes.flatMap fun b => [hexDigit (b.toNat / 16), hexDigit (b.toNat % 16)])

def hexValue? (b : UInt8) : Option Nat :=
  if 0x30 ≤ b ∧ b ≤ 0x39 then some (b.toNat - 0x30)
  else if 0x41 ≤ b ∧ b ≤ 0x46 then some (b.toNat - 0x37)
  else if 0x61 ≤ b ∧ b ≤ 0x66 then some (b.toNat - 0x57)
  else none

def hexValues (position : Nat) : Bytes → Except HexError (List Nat)
  | [] => .ok []
  | b :: rest =>
    match hexValue? b with
    | none => .error (.notADigit b position)
    | some n => (hexValues (position + 1) rest).map (n :: ·)

def ofHexValues : List Nat → Bytes
  | high :: low :: rest => UInt8.ofNat (16 * high + low) :: ofHexValues rest
  | _ => []

/-- The bytes that `text` spells. An odd number of digits is refused before any digit is read. -/
def ofHex (text : String) : Except HexError Bytes :=
  let digits := Utf8.encode text
  if digits.length % 2 = 1 then .error .oddLength
  else (hexValues 0 digits).map ofHexValues

end Bytes

end SkipChain
