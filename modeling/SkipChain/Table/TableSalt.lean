import SkipChain.Hash.Algorithm
import SkipChain.Table.Row
import SkipChain.Table.SaltScheme
/-!
Salts of a table's cells, all derived from one secret seed.
-/
namespace SkipChain

structure TableSalt where
  algorithm : Algorithm
  seed : Bytes

namespace TableSalt

def preimage (t : TableSalt) (row column : Nat) : Bytes :=
  t.seed ++ Bytes.bigEndian 8 row ++ Bytes.bigEndian 4 column

def salt (t : TableSalt) (row column : Nat) : Salt :=
  .ofDigest (t.algorithm.digest (t.preimage row column))

/-- The salt of a value in a row and a column under a scheme: none for hashes. -/
def saltFor? (t : TableSalt) (scheme : SaltScheme) (row column : Nat) (value : Value) :
    Option Salt :=
  if scheme.isSalted column && value.columnType.saltable then some (t.salt row column) else none

def saltCells (t : TableSalt) (scheme : SaltScheme) (row : Nat) :
    (column : Nat) → List Value → Except ValueError (List Cell)
  | _, [] => .ok []
  | column, value :: values => do
    let cell ← Cell.make value (t.saltFor? scheme row column value)
    return cell :: (← saltCells t scheme row (column + 1) values)

def saltRow (t : TableSalt) (scheme : SaltScheme) (row : Nat) (values : List Value) :
    Except ValueError Row := do
  return ⟨← t.saltCells scheme row 0 values⟩

/-- The form for logs, which keeps the seed to itself. -/
def debug (t : TableSalt) : String :=
  let algorithm := match t.algorithm with
    | .sha256 => "Sha256"
    | .blake3 => "Blake3"
  "TableSalt \x7b algorithm: " ++ algorithm ++ ", .. \x7d"

end TableSalt

end SkipChain
