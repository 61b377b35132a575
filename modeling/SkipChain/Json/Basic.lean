import SkipChain.Json.Decimal
/-!
JSON values. A numeral without point and power that fits into 64 bits is an integer; every other
numeral is kept as it is written.
-/
namespace SkipChain

/-- A JSON value. The members of an object are in the order in which they are written. -/
inductive Json where
  | null
  | bool (b : Bool)
  | integer (n : Int)
  | decimal (d : Decimal)
  | string (s : String)
  | array (items : List Json)
  | object (members : List (String × Json))

namespace Json

instance : Inhabited Json := ⟨null⟩

def member? (name : String) : Json → Option Json
  | object members => members.lookup name
  | _ => none

def addMember (name : String) (value : Json) : List (String × Json) → List (String × Json)
  | [] => [(name, value)]
  | m :: rest => if m.1 = name then (name, value) :: rest else m :: addMember name value rest

def ofOption {α : Type} (write : α → Json) : Option α → Json
  | none => null
  | some a => write a

end Json

end SkipChain
