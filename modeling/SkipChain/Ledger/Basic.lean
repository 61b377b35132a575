import SkipChain.Hash.Algorithm
import SkipChain.Ledger.Error
import SkipChain.Ledger.Link
import SkipChain.Skip
/-!
Ledgers: rows are appended by their input hashes and numbered from 1, and the hash of each row
covers the hashes of the rows it links to. A ledger can be cut back to its first rows.
-/
namespace SkipChain

structure LedgerRow where
  input : Digest
  hash : Digest
  deriving DecidableEq

/-- The rows of a ledger in order, row 1 first, and the algorithm of their hashes. -/
structure Ledger where
  algorithm : Algorithm
  rows : Array LedgerRow
  deriving DecidableEq

namespace Ledger

def new (algorithm : Algorithm) : Ledger := ⟨algorithm, #[]⟩

def size (l : Ledger) : Nat := l.rows.size

def row? (l : Ledger) (n : Nat) : Option LedgerRow := if n = 0 then none else l.rows[n - 1]?

def rowHash (l : Ledger) (n : Nat) : Except LedgerError Digest :=
  if n = 0 then .ok .sentinel
  else match l.row? n with
    | some r => .ok r.hash
    | none => .error (.rowOutOfBounds n l.size)

def inputHash (l : Ledger) (n : Nat) : Except LedgerError Digest :=
  match l.row? n with
  | some r => .ok r.input
  | none => .error (.rowOutOfBounds n l.size)

def hashBelow (l : Ledger) (n : Nat) : Digest := (l.row? n).elim .sentinel LedgerRow.hash

def nextHash (l : Ledger) (input : Digest) : Digest :=
  l.algorithm.digest.link input ((Skip.references (l.size + 1)).map l.hashBelow)

def append (l : Ledger) (input : Digest) : Ledger :=
  { l with rows := l.rows.push ⟨input, l.nextHash input⟩ }

def appendAll (l : Ledger) (inputs : List Digest) : Ledger := inputs.foldl append l

def ofInputs (algorithm : Algorithm) (inputs : List Digest) : Ledger :=
  (new algorithm).appendAll inputs

def inputs (l : Ledger) : List Digest := l.rows.toList.map LedgerRow.input

def trim (l : Ledger) (n : Nat) : Except LedgerError Ledger :=
  if l.size < n then .error (.trimBeyondSize n l.size)
  else .ok { l with rows := l.rows.take n }

def state (l : Ledger) : Digest := l.hashBelow l.size

end Ledger

end SkipChain
