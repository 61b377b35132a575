import SkipChain.Text.Unprintable
/-!
Quoted text in messages: the quotation mark and the backslash are escaped, four controls have short
escapes, and every other character without a glyph is written by its code point.
-/
namespace SkipChain.Text

def hexDigits (n : Nat) : List Char := Nat.toDigits 16 n

def hexPadded (width n : Nat) : String :=
  let digits := hexDigits n
  String.ofList (List.replicate (width - digits.length) '0' ++ digits)

def escape (mark c : Char) : List Char :=
  if c = '\x00' then ['\\', '0']
  else if c = '\t' then ['\\', 't']
  else if c = '\n' then ['\\', 'n']
  else if c = '\r' then ['\\', 'r']
  else if c = mark ∨ c = '\\' then ['\\', c]
  else if isUnprintable c then ['\\', 'u', '\x7b'] ++ hexDigits c.toNat ++ ['\x7d']
  else [c]

/-- `s` between double quotation marks; a single quotation mark stands for itself. -/
def quoted (s : String) : String :=
  String.ofList ('"' :: s.toList.flatMap (escape '"') ++ ['"'])

/-- `c` between single quotation marks; a double quotation mark stands for itself. -/
def quotedChar (c : Char) : String :=
  String.ofList ('\'' :: escape '\'' c ++ ['\''])

end SkipChain.Text
