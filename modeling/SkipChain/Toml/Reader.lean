import SkipChain.Toml.Basic
import SkipChain.Word
/-!
Reading TOML documents. The grammar is that of version 1.0; values nest at most 79 deep, and a key
has at most 79 parts.
-/
namespace SkipChain.Toml

abbrev Reader (α : Type) := StateT (List Char) Option α

namespace Reader

def peek : Reader (Option Char) := fun cs => some (cs.head?, cs)

def ahead : Reader (List Char) := fun cs => some (cs, cs)

def next : Reader Char
  | [] => none
  | c :: cs => some (c, cs)

def accept (text : String) : Reader Bool := fun cs =>
  if text.toList.isPrefixOf cs then some (true, cs.drop text.length) else some (false, cs)

def acceptAny : List String → Reader Bool
  | [] => return false
  | text :: texts => do
    if ← accept text then return true else acceptAny texts

def expect (text : String) : Reader Unit := do
  if ← accept text then return () else failure

def takeWhile (p : Char → Bool) : Reader (List Char) := fun cs => some (cs.span p)

def takeExactly (n : Nat) (p : Char → Bool) : Reader (List Char) := fun cs =>
  let taken := cs.take n
  if taken.length = n ∧ taken.all p then some (taken, cs.drop n) else none

def attempt {α : Type} (read : Reader α) : Reader (Option α) := fun cs =>
  match read cs with
  | some (a, cs) => some (some a, cs)
  | none => some (none, cs)

end Reader

open Reader

/-! ### Blanks, comments and ends of lines -/

def isBlank (c : Char) : Bool := c == ' ' || c == '\t'

def isText (c : Char) : Bool := c == '\t' || (0x20 ≤ c.toNat && c.toNat ≠ 0x7F)

def blanks : Reader Unit := do let _ ← takeWhile isBlank

/-- Take the end of a line, which is also the end of the text. -/
def lineEnd : Reader Unit
  | [] => some ((), [])
  | '\n' :: cs => some ((), cs)
  | '\r' :: '\n' :: cs => some ((), cs)
  | _ => none

def lineRest : Reader Unit := do
  blanks
  if ← accept "#" then
    let _ ← takeWhile isText
  lineEnd

/-- The text after blanks, comments and ends of lines, as far as they may stand inside an array. A
comment there has an end. -/
def afterSpace : (comment : Bool) → List Char → Option (List Char)
  | _, '\n' :: cs => afterSpace false cs
  | _, '\r' :: '\n' :: cs => afterSpace false cs
  | false, '#' :: cs => afterSpace true cs
  | false, c :: cs => if isBlank c then afterSpace false cs else some (c :: cs)
  | true, c :: cs => if isText c then afterSpace true cs else none
  | true, [] => none
  | false, [] => some []

def space : Reader Unit := fun cs => (afterSpace false cs).map ((), ·)

/-! ### Strings -/

def hexValue (c : Char) : Nat :=
  if c ≤ '9' then c.toNat - 48 else if c ≤ 'F' then c.toNat - 55 else c.toNat - 87

def isHexDigit (c : Char) : Bool :=
  c.isDigit || ('a' ≤ c && c ≤ 'f') || ('A' ≤ c && c ≤ 'F')

def ofDigits (base : Nat) (digits : List Char) : Nat :=
  digits.foldl (fun n c => base * n + hexValue c) 0

def codePoint (n : Nat) : Reader Char := do
  let code := ofDigits 16 (← takeExactly n isHexDigit)
  if code.isValidChar then return Char.ofNat code else failure

def escaped : Reader Char := do
  match ← next with
  | 'b' => return '\x08'
  | 't' => return '\t'
  | 'n' => return '\n'
  | 'f' => return '\x0c'
  | 'r' => return '\r'
  | '"' => return '"'
  | '\\' => return '\\'
  | 'u' => codePoint 4
  | 'U' => codePoint 8
  | _ => failure

def basicString : (fuel : Nat) → Reader (List Char)
  | 0 => failure
  | fuel + 1 => do
    match ← next with
    | '"' => return []
    | '\\' =>
      let c ← escaped
      return c :: (← basicString fuel)
    | c => if isText c then return c :: (← basicString fuel) else failure

def literalString : Reader (List Char) := do
  let cs ← takeWhile fun c => isText c && c ≠ '\''
  expect "'"
  return cs

def afterBreaks : List Char → List Char
  | '\r' :: '\n' :: cs => afterBreaks cs
  | '\n' :: cs => afterBreaks cs
  | c :: cs => if isBlank c then afterBreaks cs else c :: cs
  | [] => []

/-- The text after a backslash that ends its line, and after the space that follows. -/
def afterLineBreak? (cs : List Char) : Option (List Char) :=
  match cs.dropWhile isBlank with
  | '\n' :: cs => some (afterBreaks cs)
  | '\r' :: '\n' :: cs => some (afterBreaks cs)
  | _ => none

def acceptLineBreak : Reader Bool := fun cs =>
  match afterLineBreak? cs with
  | some rest => some (true, rest)
  | none => some (false, cs)

/-- The end of a string over several lines after its first three marks: up to two more marks are
characters of the string. -/
def extraMarks (mark : String) : Reader (List Char) := do
  if ← accept (mark ++ mark) then return (mark ++ mark).toList
  else if ← accept mark then return mark.toList
  else return []

/-- The characters of a string over several lines up to its closing marks. The marks are quotation
marks or apostrophes, and only between quotation marks there are escapes. -/
def longString (mark : String) (escapes : Bool) : (fuel : Nat) → Reader (List Char)
  | 0 => failure
  | fuel + 1 => do
    if ← accept (mark ++ mark ++ mark) then extraMarks mark
    else if ← acceptAny ["\r\n", "\n"] then
      return '\n' :: (← longString mark escapes fuel)
    else
      let c ← next
      if escapes ∧ c = '\\' then
        if ← acceptLineBreak then longString mark escapes fuel
        else
          let c ← escaped
          return c :: (← longString mark escapes fuel)
      else if isText c then return c :: (← longString mark escapes fuel)
      else failure

/-- A string over several lines after its opening marks. An end of line right there does not
count. -/
def afterOpening (mark : String) (escapes : Bool) : Reader (List Char) := do
  let _ ← acceptAny ["\r\n", "\n"]
  longString mark escapes ((← ahead).length + 1)

def shortString : Reader String := do
  if ← accept "\"" then return String.ofList (← basicString ((← ahead).length + 1))
  else
    expect "'"
    return String.ofList (← literalString)

def readString : Reader String := do
  if ← accept "\"\"\"" then return String.ofList (← afterOpening "\"" true)
  else if ← accept "'''" then return String.ofList (← afterOpening "'" false)
  else shortString

/-! ### Numbers -/

/-- Whether no underscore stands elsewhere than between two digits. -/
def separatesDigits : List Char → Bool
  | [] => false
  | '_' :: _ => false
  | [_] => true
  | c :: '_' :: rest => c ≠ '_' && separatesDigits rest
  | _ :: rest => separatesDigits rest

/-- Digits that satisfy `p`, at least one, with single underscores between some of them. -/
def digits (p : Char → Bool) : Reader (List Char) := do
  let cs ← takeWhile fun c => p c || c == '_'
  if separatesDigits cs then return cs.filter (· ≠ '_') else failure

def signed (negative : Bool) (n : Nat) : Option Toml :=
  let value : Int := if negative then -(n : Int) else n
  if Word.isInt64 value then some (integer value) else none

def based (base : Nat) (p : Char → Bool) : Reader Toml := do
  match signed false (ofDigits base (← digits p)) with
  | some n => return n
  | none => failure

def sign : Reader Bool := do
  if ← accept "-" then return true
  else
    let _ ← accept "+"
    return false

def width (n : Nat) : Nat := (Nat.toDigits 10 n).length

/-- Whether `n * 10 ^ power` is beyond all finite floating-point numbers: it rounds to one only
below the middle between the largest of them and the next power of two. Numbers that are far from
that are told by their width. -/
def isBeyondFloat (n : Nat) (power : Int) : Bool :=
  let bound : Nat := ((1 <<< 54) - 1) <<< 970
  if n = 0 ∨ width n + power < 300 then false
  else if 320 < width n + power then true
  else if 0 ≤ power then bound ≤ n * Nat.pow 10 power.toNat
  else bound * Nat.pow 10 (-power).toNat ≤ n

def exponent : Reader Int := do
  let negative ← sign
  let n := ofDigits 10 (← digits Char.isDigit)
  return if negative then -(n : Int) else n

/-- A number in base ten after its sign: an integer, or a floating-point number, which has a point
or a power of ten. A positive number must not be beyond the finite ones; a negative one may. -/
def decimal (negative : Bool) : Reader Toml := do
  let whole ← digits Char.isDigit
  if whole.head? = some '0' ∧ 1 < whole.length then failure
  let fraction ← if ← accept "." then some <$> digits Char.isDigit else pure none
  let power ← if ← acceptAny ["e", "E"] then some <$> exponent else pure none
  match fraction, power with
  | none, none =>
    match signed negative (ofDigits 10 whole) with
    | some n => return n
    | none => failure
  | _, _ =>
    let fraction := fraction.getD []
    let n := ofDigits 10 (whole ++ fraction)
    if !negative && isBeyondFloat n (power.getD 0 - fraction.length) then failure
    return float

def number : Reader Toml := do
  if ← accept "0x" then based 16 isHexDigit
  else if ← accept "0o" then based 8 fun c => '0' ≤ c && c ≤ '7'
  else if ← accept "0b" then based 2 fun c => c == '0' || c == '1'
  else
    let negative ← sign
    if ← acceptAny ["inf", "nan"] then return float
    decimal negative

/-! ### Dates -/

def digitsIn (n low high : Nat) : Reader Nat := do
  let value := ofDigits 10 (← takeExactly n Char.isDigit)
  if low ≤ value ∧ value ≤ high then return value else failure

def isLeapYear (year : Nat) : Bool :=
  year % 4 = 0 && (year % 100 ≠ 0 || year % 400 = 0)

def daysIn (year month : Nat) : Nat :=
  if month = 2 then if isLeapYear year then 29 else 28
  else if month = 4 ∨ month = 6 ∨ month = 9 ∨ month = 11 then 30
  else 31

def day : Reader Unit := do
  let year ← digitsIn 4 0 9999
  expect "-"
  let month ← digitsIn 2 1 12
  expect "-"
  let _ ← digitsIn 2 1 (daysIn year month)

def secondPart : Reader Unit := do
  expect "."
  let _ ← takeExactly 1 Char.isDigit
  let _ ← takeWhile Char.isDigit

def timeOfDay : Reader Unit := do
  let _ ← digitsIn 2 0 23
  expect ":"
  let _ ← digitsIn 2 0 59
  expect ":"
  let _ ← digitsIn 2 0 60
  let _ ← attempt secondPart

def zone : Reader Unit := do
  if ← acceptAny ["Z", "z"] then return ()
  else if ← acceptAny ["+", "-"] then
    let _ ← digitsIn 2 0 23
    expect ":"
    let _ ← digitsIn 2 0 59
  else failure

def timeOfDate : Reader Unit := do
  if ← acceptAny ["T", "t", " "] then
    timeOfDay
    let _ ← attempt zone
  else failure

def readDate : Reader Toml := do
  if (← attempt day).isSome then
    let _ ← attempt timeOfDate
  else timeOfDay
  return date

/-! ### Keys and values -/

def isKeyChar (c : Char) : Bool := c.isAlphanum || c == '-' || c == '_'

def keyPart : Reader String := do
  match ← peek with
  | some '"' | some '\'' => shortString
  | _ =>
    let cs ← takeWhile isKeyChar
    if cs.isEmpty then failure else return String.ofList cs

def keyParts : (fuel : Nat) → Reader (List String)
  | 0 => failure
  | fuel + 1 => do
    blanks
    let part ← keyPart
    blanks
    if ← accept "." then return part :: (← keyParts fuel) else return [part]

/-- How deep values nest, and how many parts a key has. -/
def maxDepth : Nat := 79

def key : Reader (List String × String) := do
  let parts ← keyParts ((← ahead).length + 1)
  match parts.getLast? with
  | none => failure
  | some last => if maxDepth < parts.length then failure else return (parts.dropLast, last)

def keyValue (value : Reader Toml) : Reader ((List String × String) × Toml) := do
  let k ← key
  expect "="
  blanks
  return (k, ← value)

def arrayItems (value : Reader Toml) : (fuel : Nat) → Reader (List Toml)
  | 0 => failure
  | fuel + 1 => do
    space
    if ← accept "]" then return []
    let item ← value
    space
    if ← accept "]" then return [item]
    expect ","
    return item :: (← arrayItems value fuel)

def inlineEntries (value : Reader Toml) : (fuel : Nat) → (before : Entries) → Reader Entries
  | 0, _ => failure
  | fuel + 1, before => do
    let ((path, name), v) ← keyValue value
    match addDotted path name v before with
    | none => failure
    | some entries =>
      blanks
      if ← accept "\x7d" then return entries
      expect ","
      inlineEntries value fuel entries

def scalar : Reader Toml := do
  match ← peek with
  | some '"' | some '\'' => return string (← readString)
  | some 't' => expect "true"; return boolean true
  | some 'f' => expect "false"; return boolean false
  | _ =>
    match ← attempt readDate with
    | some d => return d
    | none => number

def value : (depth : Nat) → Reader Toml
  | 0 => scalar
  | depth + 1 => do
    if ← accept "[" then return array (← arrayItems (value depth) ((← ahead).length + 1))
    else if ← accept "\x7b" then
      blanks
      if ← accept "\x7d" then return table .inline []
      return table .inline (← inlineEntries (value depth) ((← ahead).length + 1) [])
    else scalar

/-! ### Lines -/

def statement (d : Draft) : Reader (Option Draft) := do
  match ← peek with
  | none | some '\n' | some '\r' | some '#' => return some d
  | some '[' =>
    if ← accept "[[" then
      let (path, name) ← key
      expect "]]"
      return d.itemHeader path name
    else
      expect "["
      let (path, name) ← key
      expect "]"
      return d.header path name
  | _ =>
    let ((path, name), v) ← keyValue (value maxDepth)
    return d.add path name v

def lines : (fuel : Nat) → Draft → Reader Draft
  | 0, _ => failure
  | fuel + 1, d => do
    if (← ahead).isEmpty then return d
    blanks
    match ← statement d with
    | none => failure
    | some d =>
      lineRest
      lines fuel d

/-- The table that a text spells. A byte order mark in front of it does not count. -/
def parse? (text : String) : Option Entries := do
  let cs := match text.toList with
    | '\uFEFF' :: cs => cs
    | cs => cs
  let (d, _) ← lines (cs.length + 1) .empty cs
  return d.entries

end SkipChain.Toml
