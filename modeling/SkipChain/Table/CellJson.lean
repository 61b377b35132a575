import SkipChain.Json.Basic
import SkipChain.Table.Cell
/-!
The JSON form of cells: an object with the value under the name of its type, and the salt.
-/
namespace SkipChain

inductive CellJsonError where
  /-- It does not have the form of a cell. -/
  | shape
  /-- It has the form, but the cell is refused. -/
  | refused (cause : ValueError)
  deriving DecidableEq

namespace CellJson

def ofBytes (bytes : Bytes) : Json := .array (bytes.map fun b => .integer b.toNat)

def byte? : Json → Option UInt8
  | .integer n => if 0 ≤ n ∧ n < 256 then some (UInt8.ofNat n.toNat) else none
  | _ => none

def bytes? : Json → Option Bytes
  | .array items => items.mapM byte?
  | _ => none

def int64? : Json → Option Int64
  | .integer n => if Word.isInt64 n then some (Int64.ofInt n) else none
  | _ => none

/-- The bits of a floating-point number, which may be written as an integer. -/
def double? : Json → Option UInt64
  | .integer n => (Decimal.mk (n < 0) n.natAbs 0).toDouble?
  | .decimal d => d.toDouble?
  | _ => none

def digest? (json : Json) : Option Digest := do
  (Digest.ofBytes (← bytes? json)).toOption

def salt? (json : Json) : Option Salt := do
  (Salt.ofBytes (← bytes? json)).toOption

def value? : Json → Option Value
  | .string name => if name = "Null" then some .null else none
  | .object [(name, content)] =>
    if name = "Null" then
      match content with
      | .null => some .null
      | _ => none
    else if name = "Hash" then (digest? content).map .hash
    else if name = "Bytes" then (bytes? content).map .bytes
    else if name = "String" then
      match content with
      | .string s => some (.string s)
      | _ => none
    else if name = "Long" then (int64? content).map .long
    else if name = "Double" then (double? content).map .double
    else if name = "Date" then (int64? content).map .date
    else none
  | _ => none

def optionalSalt? : Json → Option (Option Salt)
  | .null => some none
  | json => (salt? json).map some

/-- The value and the salt in an object, where the salt may be missing, or in an array of two. -/
def parts? : Json → Option (Value × Option Salt)
  | .array [value, salt] => do return (← value? value, ← optionalSalt? salt)
  | .object members => do
    return (← value? (← members.lookup "value"),
      ← optionalSalt? ((members.lookup "salt").getD .null))
  | _ => none

end CellJson

namespace Cell

def ofJson (json : Json) : Except CellJsonError Cell :=
  match CellJson.parts? json with
  | none => .error .shape
  | some (value, salt) => (make value salt).mapError .refused

end Cell

/-- The JSON form of a value. Floating-point numbers are read but not written. -/
def Value.toJson? : Value → Option Json
  | .null => some (.string "Null")
  | .hash d => some (.object [("Hash", CellJson.ofBytes d.bytes)])
  | .bytes b => some (.object [("Bytes", CellJson.ofBytes b)])
  | .string s => some (.object [("String", .string s)])
  | .long n => some (.object [("Long", .integer n.toInt)])
  | .double _ => none
  | .date n => some (.object [("Date", .integer n.toInt)])

def Cell.toJson? (c : Cell) : Option Json := do
  return .object [("value", ← c.value.toJson?),
    ("salt", .ofOption (CellJson.ofBytes ·.bytes) c.salt)]

end SkipChain
