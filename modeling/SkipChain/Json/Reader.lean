import SkipChain.Json.Basic
/-!
Reading JSON text. Of two members of an object with one name the later one counts.
-/
namespace SkipChain.Json

def skipBlanks (cs : List Char) : List Char :=
  cs.dropWhile fun c => c == ' ' || c == '\n' || c == '\r' || c == '\t'

def hexValue? (c : Char) : Option Nat :=
  if '0' ≤ c ∧ c ≤ '9' then some (c.toNat - 48)
  else if 'a' ≤ c ∧ c ≤ 'f' then some (c.toNat - 87)
  else if 'A' ≤ c ∧ c ≤ 'F' then some (c.toNat - 55)
  else none

def codeUnit? : List Char → Option (Nat × List Char)
  | a :: b :: c :: d :: rest => do
    let value := 4096 * (← hexValue? a) + 256 * (← hexValue? b) + 16 * (← hexValue? c)
      + (← hexValue? d)
    return (value, rest)
  | _ => none

/-- The character of an escape by its code, after the letter u. A code point above U+FFFF takes two
escapes. -/
def codePoint? (cs : List Char) : Option (Char × List Char) := do
  let (high, rest) ← codeUnit? cs
  if 0xD800 ≤ high ∧ high < 0xDC00 then
    match rest with
    | '\\' :: 'u' :: rest =>
      let (low, rest) ← codeUnit? rest
      if 0xDC00 ≤ low ∧ low < 0xE000 then
        return (Char.ofNat (0x10000 + 1024 * (high - 0xD800) + (low - 0xDC00)), rest)
      else none
    | _ => none
  else if 0xDC00 ≤ high ∧ high < 0xE000 then none
  else return (Char.ofNat high, rest)

def unescape? : List Char → Option (Char × List Char)
  | '"' :: rest => some ('"', rest)
  | '\\' :: rest => some ('\\', rest)
  | '/' :: rest => some ('/', rest)
  | 'b' :: rest => some ('\x08', rest)
  | 'f' :: rest => some ('\x0c', rest)
  | 'n' :: rest => some ('\n', rest)
  | 'r' :: rest => some ('\r', rest)
  | 't' :: rest => some ('\t', rest)
  | 'u' :: rest => codePoint? rest
  | _ => none

def string? : (fuel : Nat) → List Char → Option (List Char × List Char)
  | 0, _ => none
  | _ + 1, [] => none
  | fuel + 1, c :: cs =>
    if c = '"' then some ([], cs)
    else if c = '\\' then do
      let (c, rest) ← unescape? cs
      let (s, rest) ← string? fuel rest
      return (c :: s, rest)
    else if c.toNat < 0x20 then none
    else do
      let (s, rest) ← string? fuel cs
      return (c :: s, rest)

def digits? (cs : List Char) : Option (List Char × List Char) :=
  match cs.span Char.isDigit with
  | ([], _) => none
  | r => some r

def power? : List Char → Option (Int × List Char)
  | c :: cs =>
    if c = 'e' ∨ c = 'E' then do
      let (negative, cs) := match cs with
        | '-' :: cs => (true, cs)
        | '+' :: cs => (false, cs)
        | cs => (false, cs)
      let (ds, rest) ← digits? cs
      let n : Nat := ds.foldl (fun n d => 10 * n + Decimal.digitValue d) 0
      return (if negative then -(n : Int) else n, rest)
    else some (0, c :: cs)
  | [] => some (0, [])

/-- The value of a numeral. The negative zero is no integer. -/
def ofNumeral (negative : Bool) (whole : List Char) (fraction : List Char) (power : Int)
    (plain : Bool) : Json :=
  let n : Nat := whole.foldl (fun n d => 10 * n + Decimal.digitValue d) 0
  if plain && !negative && n < Word.count64 then integer n
  else if plain && negative && n ≠ 0 && Word.isInt64 (-n) then integer (-n)
  else decimal (.ofDigits negative whole fraction power)

/-- A number, and the text after it. A zero stands first only alone. -/
def number? (cs : List Char) : Option (Json × List Char) := do
  let (negative, cs) := match cs with
    | '-' :: cs => (true, cs)
    | cs => (false, cs)
  let (whole, rest) ← digits? cs
  if whole.head? = some '0' ∧ 1 < whole.length then none
  let (fraction, rest) ← match rest with
    | '.' :: rest => digits? rest
    | rest => some ([], rest)
  let (power, after) ← power? rest
  return (ofNumeral negative whole fraction power
    (fraction.isEmpty && after.length == rest.length), after)

mutual

def value? : (fuel : Nat) → List Char → Option (Json × List Char)
  | 0, _ => none
  | fuel + 1, cs =>
    match skipBlanks cs with
    | 'n' :: 'u' :: 'l' :: 'l' :: rest => some (null, rest)
    | 't' :: 'r' :: 'u' :: 'e' :: rest => some (bool true, rest)
    | 'f' :: 'a' :: 'l' :: 's' :: 'e' :: rest => some (bool false, rest)
    | '"' :: rest => do
      let (s, rest) ← string? (rest.length + 1) rest
      return (string (String.ofList s), rest)
    | '[' :: rest =>
      match skipBlanks rest with
      | ']' :: rest => some (array [], rest)
      | rest => do
        let (items, rest) ← items? fuel rest
        return (array items, rest)
    | '\x7b' :: rest =>
      match skipBlanks rest with
      | '\x7d' :: rest => some (object [], rest)
      | rest => do
        let (members, rest) ← members? fuel [] rest
        return (object members, rest)
    | rest => number? rest

def items? : (fuel : Nat) → List Char → Option (List Json × List Char)
  | 0, _ => none
  | fuel + 1, cs => do
    let (item, rest) ← value? fuel cs
    match skipBlanks rest with
    | ',' :: rest =>
      let (items, rest) ← items? fuel rest
      return (item :: items, rest)
    | ']' :: rest => return ([item], rest)
    | _ => none

def members? : (fuel : Nat) → (before : List (String × Json)) → List Char →
    Option (List (String × Json) × List Char)
  | 0, _, _ => none
  | fuel + 1, before, cs =>
    match skipBlanks cs with
    | '"' :: rest => do
      let (name, rest) ← string? (rest.length + 1) rest
      match skipBlanks rest with
      | ':' :: rest =>
        let (value, rest) ← value? fuel rest
        let members := addMember (String.ofList name) value before
        match skipBlanks rest with
        | ',' :: rest => members? fuel members rest
        | '\x7d' :: rest => return (members, rest)
        | _ => none
      | _ => none
    | _ => none

end

def parse? (text : String) : Option Json := do
  let cs := text.toList
  let (value, rest) ← value? (cs.length + 1) cs
  if (skipBlanks rest).isEmpty then some value else none

end SkipChain.Json
