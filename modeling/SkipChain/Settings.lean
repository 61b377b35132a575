import SkipChain.Hash.Algorithm
import SkipChain.Morsel.Limits
/-!
Settings of journals: the hash algorithm of new ones, how many paths each remembers, how much is
logged, and the bounds on morsels that are read.
-/
namespace SkipChain

inductive Verbosity where
  | error
  | warn
  | info
  | debug
  | trace
  deriving DecidableEq, Repr

namespace Verbosity

def all : List Verbosity := [error, warn, info, debug, trace]

def name : Verbosity → String
  | error => "error"
  | warn => "warn"
  | info => "info"
  | debug => "debug"
  | trace => "trace"

def number? (text : List Char) : Option Nat :=
  let digits := match text with
    | '+' :: cs => cs
    | cs => cs
  if digits.isEmpty || !digits.all Char.isDigit then none
  else some (digits.foldl (fun n c => 10 * n + (c.toNat - '0'.toNat)) 0)

/-- The level that a text names: by its number, of which the least level has 1, or else by its
name in letters of either case. -/
def parse? (text : String) : Option Verbosity :=
  match number? text.toList with
  | some n => if n = 0 then none else all[n - 1]?
  | none => all.find? fun v => text.toLower = v.name

end Verbosity

inductive SettingsError where
  | zeroCapacity
  | zeroLedgers
  | level (text : String)
  /-- The document is not one of settings. -/
  | malformed
  /-- A number has no place in a document, which holds 64 bits with a sign. -/
  | beyondDocument
  deriving DecidableEq, Repr

def SettingsError.message : SettingsError → String
  | zeroCapacity => "configuration error: path_cache_capacity must be at least 1"
  | zeroLedgers => "configuration error: limits.max_ledgers must be at least 1"
  | level text => s!"configuration error: unknown log level {Text.quoted text}"
  | malformed => "configuration error: malformed document"
  | beyondDocument => "serialization error: number out of range"

structure Settings where
  algorithm : Algorithm
  /-- The number of paths that a journal remembers. -/
  cacheCapacity : Nat
  level : String
  limits : Limits
  deriving DecidableEq

namespace Settings

def default : Settings := ⟨.sha256, 128, "info", .default⟩

instance : Inhabited Settings := ⟨default⟩

def verbosity (s : Settings) : Except SettingsError Verbosity :=
  match Verbosity.parse? s.level with
  | some v => .ok v
  | none => .error (.level s.level)

/-- Refuse a cache without room, a limit that no morsel meets, and an unknown level. -/
def validate (s : Settings) : Except SettingsError Unit := do
  if s.cacheCapacity = 0 then throw .zeroCapacity
  if s.limits.maxLedgers = 0 then throw .zeroLedgers
  let _ ← s.verbosity

end Settings

end SkipChain
