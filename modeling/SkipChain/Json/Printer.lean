import SkipChain.Json.Basic
import SkipChain.Text.Quoted
/-!
JSON text, on one line or indented by two spaces a level.
-/
namespace SkipChain.Json

/-- One character inside a string. Only the marks that must be are escaped. -/
def escape (c : Char) : List Char :=
  if c = '"' ∨ c = '\\' then ['\\', c]
  else if c = '\x08' then ['\\', 'b']
  else if c = '\x0c' then ['\\', 'f']
  else if c = '\n' then ['\\', 'n']
  else if c = '\r' then ['\\', 'r']
  else if c = '\t' then ['\\', 't']
  else if c.toNat < 0x20 then ['\\', 'u'] ++ (Text.hexPadded 4 c.toNat).toList
  else [c]

def quote (s : String) : String := String.ofList ('"' :: s.toList.flatMap escape ++ ['"'])

def printDecimal (d : Decimal) : String :=
  (if d.negative then "-" else "") ++ toString d.significand ++ "e" ++ toString d.exponent

mutual

def compact : Json → String
  | null => "null"
  | bool b => if b then "true" else "false"
  | integer n => toString n
  | decimal d => printDecimal d
  | string s => quote s
  | array items => "[" ++ ",".intercalate (compactItems items) ++ "]"
  | object members => "\x7b" ++ ",".intercalate (compactMembers members) ++ "\x7d"

def compactItems : List Json → List String
  | [] => []
  | item :: items => compact item :: compactItems items

def compactMembers : List (String × Json) → List String
  | [] => []
  | (name, value) :: members => (quote name ++ ":" ++ compact value) :: compactMembers members

end

def newline (level : Nat) : String := String.ofList ('\n' :: List.replicate (2 * level) ' ')

def enclose (level : Nat) (first last : String) : List String → String
  | [] => first ++ last
  | parts =>
    first ++ newline (level + 1) ++ ("," ++ newline (level + 1)).intercalate parts
      ++ newline level ++ last

mutual

def prettyAt (level : Nat) : Json → String
  | array items => enclose level "[" "]" (prettyItems (level + 1) items)
  | object members => enclose level "\x7b" "\x7d" (prettyMembers (level + 1) members)
  | null => "null"
  | bool b => if b then "true" else "false"
  | integer n => toString n
  | decimal d => printDecimal d
  | string s => quote s

def prettyItems (level : Nat) : List Json → List String
  | [] => []
  | item :: items => prettyAt level item :: prettyItems level items

def prettyMembers (level : Nat) : List (String × Json) → List String
  | [] => []
  | (name, value) :: members =>
    (quote name ++ ": " ++ prettyAt level value) :: prettyMembers level members

end

def pretty (value : Json) : String := prettyAt 0 value

end SkipChain.Json
