import SkipChain.ValueError
/-!
The types that a column of a table can have, with the codes and symbols that stand for them.
-/
namespace SkipChain

inductive ColumnType where
  | null
  | hash
  | bytes
  | string
  | long
  | double
  | date
  deriving DecidableEq, Repr

namespace ColumnType

def all : List ColumnType := [null, hash, bytes, string, long, double, date]

def code : ColumnType → UInt8
  | null => 1
  | hash => 2
  | bytes => 3
  | string => 4
  | long => 5
  | double => 6
  | date => 7

def symbol : ColumnType → String
  | null => "NUL"
  | hash => "H"
  | bytes => "B"
  | string => "S"
  | long => "L"
  | double => "D"
  | date => "T"

instance : ToString ColumnType := ⟨symbol⟩

def ofCode (code : UInt8) : Except ValueError ColumnType :=
  match all.find? fun t => t.code == code with
  | some t => .ok t
  | none => .error (.columnCode code)

def ofSymbol (symbol : String) : Except ValueError ColumnType :=
  match all.find? fun t => t.symbol == symbol with
  | some t => .ok t
  | none => .error (.columnSymbol symbol)

/-- Whether values of the type may carry a salt: all but hashes, which hide what they stand for. -/
def saltable (t : ColumnType) : Bool := t != hash

def position (t : ColumnType) : Nat := all.findIdx (· == t)

end ColumnType

end SkipChain
