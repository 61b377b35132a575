import SkipChain.Morsel.RowParsing
import SkipChain.Morsel.Timechain
import SkipChain.Table.SaltScheme
/-!
What a morsel says about a ledger: what it commits to, and how its rows are made.
-/
namespace SkipChain

inductive LedgerKind where
  /-- The rows of a table. -/
  | table
  /-- A chain of trusted times. -/
  | timechain
  /-- The lines of a text. -/
  | log
  /-- The records of a byte stream. -/
  | bstream
  deriving DecidableEq, Repr

namespace LedgerKind

def all : List LedgerKind := [table, timechain, log, bstream]

def code : LedgerKind → UInt8
  | table => 1
  | timechain => 2
  | log => 3
  | bstream => 4

def ofCode (code : UInt8) : Except MorselError LedgerKind :=
  match all.find? fun k => k.code == code with
  | some k => .ok k
  | none => .error (.ledgerKind code)

def name : LedgerKind → String
  | table => "TABLE"
  | timechain => "TIMECHAIN"
  | log => "LOG"
  | bstream => "BSTREAM"

end LedgerKind

structure LedgerInfo where
  kind : LedgerKind
  name : String
  origin : Option String
  notes : Option String
  assets : Option Bytes
  salt : SaltScheme
  timechain : Option Timechain
  parsing : Option RowParsing
  deriving DecidableEq

namespace LedgerInfo

def new (kind : LedgerKind) (name : String) : LedgerInfo :=
  ⟨kind, name, none, none, none, .noneSalted, none, none⟩

/-- Refuse parameters that do not go with the kind. A timechain has its parameters and no settings
for parsing rows; every other ledger has no such parameters. -/
def validateKind (i : LedgerInfo) : Except MorselError Unit :=
  match i.kind, i.timechain, i.parsing with
  | .timechain, none, _ => .error (.metadata i.name .timechainMissing)
  | .timechain, some _, some _ => .error (.metadata i.name .timechainWithParsing)
  | .timechain, some t, none =>
    if t.isValid then .ok () else .error (.metadata i.name .binExponent)
  | _, some _, _ => .error (.metadata i.name .strayTimechain)
  | _, none, some parsing => parsing.validate
  | _, none, none => .ok ()

def validate (i : LedgerInfo) : Except MorselError Unit := do
  if i.name = "" then throw .emptyName
  if i.assets.isSome && i.notes.isNone then throw (.assetsWithoutNotes (.ledger i.name))
  i.validateKind

end LedgerInfo

end SkipChain
