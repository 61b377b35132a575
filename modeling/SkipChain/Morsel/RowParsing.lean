import SkipChain.Morsel.Error
import SkipChain.Table.Row
import SkipChain.Text.Blank
import SkipChain.Text.Split
import SkipChain.Word
/-!
Splitting the raw text of a log into numbered rows, and its lines into cells. There is no result, not
even an error, where the program stops.
-/
namespace SkipChain

structure RowParsing where
  rowDelimiter : String
  /-- Lines that start with it are left out. -/
  commentMark : Option String
  /-- Each of its characters separates cells; without it a line is one cell. -/
  tokenDelimiters : Option String
  trimTokens : Bool
  skipBlank : Bool
  deriving DecidableEq

namespace RowParsing

def lines : RowParsing := ⟨"\n", none, none, false, true⟩

def commas : RowParsing := ⟨"\n", some "#", some ",", true, true⟩

def fault? (p : RowParsing) : Option ParsingFault :=
  if p.rowDelimiter = "" then some .emptyRowDelimiter
  else if p.commentMark = some "" then some .emptyCommentMark
  else if p.tokenDelimiters = some "" then some .emptyTokenDelimiters
  else none

def validate (p : RowParsing) : Except MorselError Unit :=
  match p.fault? with
  | some fault => .error (.parsing fault)
  | none => .ok ()

def keeps (p : RowParsing) (line : List Char) : Bool :=
  !(p.commentMark.any fun mark => mark.toList.isPrefixOf line)
    && !(p.skipBlank && (Text.trim line).isEmpty)

/-- The lines of a text that make rows. A delimiter at the end starts no line. -/
def rowLines (p : RowParsing) (text : List Char) : List (List Char) :=
  match Text.dropEnding p.rowDelimiter.toList text with
  | [] => []
  | text => (Text.splitOn p.rowDelimiter.toList text).filter p.keeps

def token (p : RowParsing) (text : List Char) : Cell :=
  .ofString (String.ofList (if p.trimTokens then Text.trim text else text))

def tokenize (p : RowParsing) (line : List Char) : Row :=
  match p.tokenDelimiters with
  | none => ⟨[p.token line]⟩
  | some delimiters => ⟨(Text.splitWhere (delimiters.toList.contains ·) line).map p.token⟩

def spell (p : RowParsing) (raw : Bytes) : Except MorselError (List Row) := do
  p.validate
  match Utf8.decode raw with
  | .error offset => throw (.wire (.utf8 offset))
  | .ok text => return (p.rowLines text.toList).map p.tokenize

/-- Number rows from `first` on. The number is counted up after every row, the last one too, and the
program stops where this leaves the word. -/
def number (first : Nat) : List Row → Option (List (Nat × Row))
  | [] => return []
  | row :: rows => do
    let next ← Word.add? Word.count64 first 1
    return (first, row) :: (← number next rows)

def rows (p : RowParsing) (raw : Bytes) (first : Nat) :
    Option (Except MorselError (List (Nat × Row))) :=
  match p.spell raw with
  | .error e => return .error e
  | .ok rows => return .ok (← number first rows)

end RowParsing

end SkipChain
