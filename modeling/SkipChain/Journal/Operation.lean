import SkipChain.Journal.Disclosure
/-!
Operations on a journal that is kept somewhere, step by step. One that fails leaves what its steps
before the failure have done.
-/
namespace SkipChain

inductive Operation where
  | appendRow (row : Row)
  | appendValues (values : List Value)
  | appendInput (input : Digest)
  | path (choice : PathChoice)
  | trim (size : Nat)
  | witness (w : Witness)

inductive Operation.Answer where
  | row (n : Nat)
  | path (p : Path)
  | trimmed
  | attestation (a : RowAttestation)
  deriving DecidableEq

namespace Journal

def push (input : Digest) : Action Nat := do
  modify fun j => { j with ledger := j.ledger.append input }
  return (← get).size

def pushRow (row : Row) : Action Nat := do
  let n ← push (row.hash (← get).algorithm.digest)
  modify fun j => { j with rows := j.rows.insert n row }
  return n

def cut (n : Nat) : Action Unit := do
  let ledger ← ofExcept (((← get).ledger.trim n).mapError .ledger)
  modify fun j => { j with ledger }
  modify fun j => { j with paths := j.paths.clear }
  modify fun j => { j with rows := j.rows.filterKeys (· ≤ n) }
  modify fun j => { j with attestations := j.attestations.filter (·.row ≤ n) }

def attest (w : Witness) : Action RowAttestation := do
  let j ← get
  if j.size = 0 then throw .nothingToWitness
  else
    let a ← ofExcept (answered j.size j.state (w j.state))
    modify fun j => j.record a
    return a

end Journal

namespace Operation

open Journal

def perform : Operation → Action Answer
  | appendRow row => return .row (← pushRow row)
  | appendValues values => do
    let row ← ofExcept (((← get).nextRow values).mapError .value)
    return .row (← pushRow row)
  | appendInput input => return .row (← push input)
  | path choice => return .path (← choice.path)
  | trim n => do
    cut n
    return .trimmed
  | witness w => return .attestation (← attest w)

def answer (op : Operation) (j : Journal) : Except Error Answer :=
  match op.perform j with
  | .ok a _ => .ok a
  | .error e _ => .error e

def leave (op : Operation) (j : Journal) : Journal :=
  match op.perform j with
  | .ok _ j => j
  | .error _ j => j

end Operation

def Journal.after (j : Journal) (ops : List Operation) : Journal :=
  ops.foldl (fun j op => op.leave j) j

end SkipChain
