/-!
TOML values, and the rules by which the lines of a document may add to its tables. Settings hold no
floating-point numbers and no dates, so of those only the presence is kept.
-/
namespace SkipChain

/-- How a table came to be in a document, which decides what later lines may still put into it. -/
inductive TableOrigin where
  /-- By a header of its own, which it gets only once. -/
  | header
  /-- By the header of a table inside it; its own header may follow. -/
  | parent
  /-- By a key with dots; other such keys may go on with it. -/
  | dotted
  /-- Between braces, where it is complete. -/
  | inline
  deriving DecidableEq, Repr

inductive Toml where
  | string (s : String)
  | integer (n : Int)
  | float
  | boolean (b : Bool)
  | date
  | array (items : List Toml)
  | table (origin : TableOrigin) (entries : List (String × Toml))
  /-- Tables with one header each, of which only the last can still grow. -/
  | tables (before : List Toml) (last : List (String × Toml))

namespace Toml

instance : Inhabited Toml := ⟨boolean false⟩

abbrev Entries := List (String × Toml)

def replace (key : String) (value : Toml) : Entries → Entries
  | [] => []
  | e :: rest => if e.1 = key then (key, value) :: rest else e :: replace key value rest

def addNew (key : String) (value : Toml) (entries : Entries) : Option Entries :=
  if (entries.lookup key).isSome then none else some (entries ++ [(key, value)])

/-- Change the table at a path of keys; tables that are missing on the way are made as `made` says.
No path leads into a table between braces, and none made of the parts of a dotted key into a table
with a header. The change is told how the table at the end came to be. -/
def descend (made : TableOrigin) (change : TableOrigin → Entries → Option Entries) :
    (path : List String) → (origin : TableOrigin) → Entries → Option Entries
  | [], origin, entries => change origin entries
  | key :: path, _, entries =>
    match entries.lookup key with
    | none => do
      let inner ← descend made change path made []
      return entries ++ [(key, table made inner)]
    | some (table origin inner) =>
      if origin = .inline ∨ (made = .dotted ∧ origin = .header) then none
      else do
        let inner ← descend made change path origin inner
        return replace key (table origin inner) entries
    | some (tables before last) => do
      let last ← descend made change path .header last
      return replace key (tables before last) entries
    | some _ => none

/-- Add a value under a key with dots: first the parts before the last dot. The table that it goes
into must itself have come to be by such keys. -/
def addDotted (path : List String) (key : String) (value : Toml) (entries : Entries) :
    Option Entries :=
  if path.isEmpty then addNew key value entries
  else
    let add (origin : TableOrigin) (entries : Entries) : Option Entries :=
      if origin = .dotted then addNew key value entries else none
    descend .dotted add path .header entries

def openTable (key : String) (entries : Entries) : Option Entries :=
  match entries.lookup key with
  | none => some (entries ++ [(key, table .header [])])
  | some (table .parent inner) => some (replace key (table .header inner) entries)
  | some _ => none

def openItem (key : String) (entries : Entries) : Option Entries :=
  match entries.lookup key with
  | none => some (entries ++ [(key, tables [] [])])
  | some (tables before last) =>
    some (replace key (tables (before ++ [table .header last]) []) entries)
  | some _ => none

/-- A document as far as it has been read: its entries, and the path of the table that the next
lines go into. -/
structure Draft where
  entries : Entries
  current : List String

namespace Draft

def empty : Draft := ⟨[], []⟩

def add (d : Draft) (path : List String) (key : String) (value : Toml) : Option Draft := do
  let entries ← descend .parent (fun _ => addDotted path key value) d.current .header d.entries
  return { d with entries }

def header (d : Draft) (path : List String) (key : String) : Option Draft := do
  let entries ← descend .parent (fun _ => openTable key) path .header d.entries
  return ⟨entries, path ++ [key]⟩

def itemHeader (d : Draft) (path : List String) (key : String) : Option Draft := do
  let entries ← descend .parent (fun _ => openItem key) path .header d.entries
  return ⟨entries, path ++ [key]⟩

end Draft

end Toml

end SkipChain
