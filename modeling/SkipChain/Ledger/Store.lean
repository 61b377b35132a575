import SkipChain.Ledger.Basic
/-!
What a kind of ledger must be able to do, and what follows from that: a kind that only reads and
appends can append many rows, and refuses to be cut back.
-/
namespace SkipChain

/-- A kind of ledger. Appending gives the new row's number, or the new size for many rows. -/
class LedgerStore (L : Type) where
  algorithm : L → Algorithm
  size : L → Nat
  rowHash : L → Nat → Except LedgerError Digest
  inputHash : L → Nat → Except LedgerError Digest
  append : L → Digest → L × Nat
  state : L → Except LedgerError Digest := fun l => rowHash l (size l)
  appendAll : L → List Digest → L × Nat := fun l inputs =>
    inputs.foldl (fun r input => append r.1 input) (l, size l)
  trim : L → Nat → Except LedgerError L := fun _ _ => .error .trimUnsupported

instance : LedgerStore Ledger where
  algorithm := Ledger.algorithm
  size := Ledger.size
  rowHash := Ledger.rowHash
  inputHash := Ledger.inputHash
  append l input := let l := l.append input; (l, l.size)
  appendAll l inputs := let l := l.appendAll inputs; (l, l.size)
  trim := Ledger.trim

structure AppendOnly (L : Type) where
  inner : L

instance {L : Type} [LedgerStore L] : LedgerStore (AppendOnly L) where
  algorithm l := LedgerStore.algorithm l.inner
  size l := LedgerStore.size l.inner
  rowHash l := LedgerStore.rowHash l.inner
  inputHash l := LedgerStore.inputHash l.inner
  append l input := let r := LedgerStore.append l.inner input; (⟨r.1⟩, r.2)
  appendAll l inputs := let r := LedgerStore.appendAll l.inner inputs; (⟨r.1⟩, r.2)

/-- A ledger seen through reading and appending single rows alone. -/
structure OneByOne (L : Type) where
  inner : L

instance {L : Type} [LedgerStore L] : LedgerStore (OneByOne L) where
  algorithm l := LedgerStore.algorithm l.inner
  size l := LedgerStore.size l.inner
  rowHash l := LedgerStore.rowHash l.inner
  inputHash l := LedgerStore.inputHash l.inner
  append l input := let r := LedgerStore.append l.inner input; (⟨r.1⟩, r.2)

end SkipChain
