import SkipChain.Journal.Operation
/-!
Journals whose witnesses take their time. A witness is shown a state, and until it answers other
operations go on.
-/
namespace SkipChain

structure Question where
  row : Nat
  state : Digest
  deriving DecidableEq

namespace Journal

def ask (j : Journal) : Except Error Question :=
  if j.size = 0 then .error .nothingToWitness else .ok ⟨j.size, j.state⟩

/-- Record an answer against the row that was asked for, if it attests the state that was shown. -/
def settle (q : Question) (answer : Except WitnessError Attestation) : Action RowAttestation := do
  let a ← ofExcept (answered q.row q.state answer)
  modify fun j => j.record a
  return a

def settled (q : Question) (answer : Except WitnessError Attestation) (j : Journal) : Journal :=
  match settle q answer j with
  | .ok _ j => j
  | .error _ j => j

end Journal

structure Consultation where
  journal : Journal
  questions : List Question

namespace Consultation

inductive Event where
  | perform (op : Operation)
  | ask
  | answer (q : Question) (answer : Except WitnessError Attestation)

/-- What is left after an event. A journal without rows asks nothing, and an answer to what is not
asked comes to nothing. -/
def next (s : Consultation) : Event → Consultation
  | .perform op => { s with journal := op.leave s.journal }
  | .ask =>
    match s.journal.ask with
    | .ok q => { s with questions := q :: s.questions }
    | .error _ => s
  | .answer q answer =>
    if q ∈ s.questions then ⟨s.journal.settled q answer, s.questions.erase q⟩ else s

def after (s : Consultation) (events : List Event) : Consultation := events.foldl next s

end Consultation

end SkipChain
