import SkipChain.Settings
import SkipChain.Toml.Reader
/-!
Settings as TOML documents. What a document leaves out has its default, and what it says beyond the
settings does not count.
-/
namespace SkipChain.Settings

/-- What a section says under a name. A section is a table, or the list of its values in order; a
date is a section that says nothing. Other values are no sections. -/
def setting? (section? : Option Toml) (name : String) (place : Nat) : Option (Option Toml) :=
  match section? with
  | none | some .date => some none
  | some (.table _ entries) => some (entries.lookup name)
  | some (.array items) => some items[place]?
  | some (.tables before last) => some ((before ++ [.table .header last])[place]?)
  | some _ => none

def readNat (default : Nat) : Option Toml → Option Nat
  | none => some default
  | some (.integer n) => if 0 ≤ n then some n.toNat else none
  | some _ => none

def readText (default : String) : Option Toml → Option String
  | none => some default
  | some (.string s) => some s
  | some _ => none

def holdsNothing : Toml → Bool
  | .table _ entries => entries.isEmpty
  | .array items => items.isEmpty
  | _ => false

/-- The algorithm with a name, or the default. The name is a text, or the only key of a table, with
nothing under it. -/
def readAlgorithm (default : Algorithm) : Option Toml → Option Algorithm
  | none => some default
  | some (.string name) => Algorithm.ofName? name
  | some (.table _ [(name, value)]) =>
    if holdsNothing value then Algorithm.ofName? name else none
  | some _ => none

def readLimits (section? : Option Toml) : Option Limits := do
  let d := Limits.default
  return {
    maxLedgers := ← readNat d.maxLedgers (← setting? section? "max_ledgers" 0)
    maxSectionBytes := ← readNat d.maxSectionBytes (← setting? section? "max_section_bytes" 1)
    maxPathEntries := ← readNat d.maxPathEntries (← setting? section? "max_path_entries" 2)
    maxCellsPerRow := ← readNat d.maxCellsPerRow (← setting? section? "max_cells_per_row" 3) }

def ofEntries? (entries : Toml.Entries) : Option Settings := do
  return {
    algorithm := ← readAlgorithm default.algorithm (entries.lookup "hash")
    cacheCapacity := ← readNat default.cacheCapacity (entries.lookup "path_cache_capacity")
    level := ← readText default.level (← setting? (entries.lookup "logging") "level" 0)
    limits := ← readLimits (entries.lookup "limits") }

def ofDocument (text : String) : Except SettingsError Settings := do
  match (Toml.parse? text).bind ofEntries? with
  | none => throw .malformed
  | some s =>
    s.validate
    return s

def escape (c : Char) : List Char :=
  if c = '"' ∨ c = '\\' then ['\\', c]
  else if (c.toNat < 0x20 ∧ c ≠ '\t') ∨ c.toNat = 0x7F then
    ['\\', 'u'] ++ (Text.hexPadded 4 c.toNat).toList
  else [c]

def quote (s : String) : String := String.ofList ('"' :: s.toList.flatMap escape ++ ['"'])

def numbers (s : Settings) : List Nat :=
  [s.cacheCapacity, s.limits.maxLedgers, s.limits.maxSectionBytes, s.limits.maxPathEntries,
    s.limits.maxCellsPerRow]

def toDocument (s : Settings) : Except SettingsError String :=
  if s.numbers.any fun n => !Word.isInt64 n then .error .beyondDocument
  else .ok (String.join [
    s!"hash = {quote s.algorithm.name}\n",
    s!"path_cache_capacity = {s.cacheCapacity}\n",
    "\n[logging]\n",
    s!"level = {quote s.level}\n",
    "\n[limits]\n",
    s!"max_ledgers = {s.limits.maxLedgers}\n",
    s!"max_section_bytes = {s.limits.maxSectionBytes}\n",
    s!"max_path_entries = {s.limits.maxPathEntries}\n",
    s!"max_cells_per_row = {s.limits.maxCellsPerRow}\n"])

end SkipChain.Settings
