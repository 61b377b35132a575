import SkipChain.Journal.Operation
import SkipChain.Proofs.Journal.Disclosure
/-!
Runs of operations on a journal. However they go, what the journal retains and records is of its
ledger, and an operation that fails leaves the ledger and what is retained and recorded alone.
-/
namespace SkipChain

namespace Journal

/-! Taken step by step, cutting back and witnessing do what they do at once. -/

theorem cut_eq (n : Nat) (j : Journal) :
    cut n j = match j.trim n with
      | .ok j' => .ok () j'
      | .error e => .error e j := by
  have hstep : cut n j = (do
      let ledger ← ofExcept ((j.ledger.trim n).mapError .ledger)
      modify fun j => { j with ledger }
      modify fun j => { j with paths := j.paths.clear }
      modify fun j => { j with rows := j.rows.filterKeys (· ≤ n) }
      modify fun j => { j with attestations := j.attestations.filter (·.row ≤ n) }
        : Action Unit) j := rfl
  rw [hstep, Journal.trim]
  cases j.ledger.trim n <;> rfl

theorem attest_eq (w : Witness) (j : Journal) :
    attest w j = match j.witness w with
      | .ok (a, j') => .ok a j'
      | .error e => .error e j := by
  have hstep : attest w j = (if j.size = 0 then throw .nothingToWitness else do
      let a ← ofExcept (answered j.size j.state (w j.state))
      modify fun j => j.record a
      return a : Action RowAttestation) j := rfl
  rw [hstep, Journal.witness]
  by_cases hsize : j.size = 0
  · rw [if_pos hsize, if_pos hsize]
    rfl
  · rw [if_neg hsize, if_neg hsize]
    cases answered j.size j.state (w j.state) <;> rfl

end Journal

namespace Operation

open Journal

variable {j j' : Journal} {e : Error}

theorem perform_appendRow (row : Row) (j : Journal) :
    (appendRow row).perform j = .ok (.row (j.appendRow row).size) (j.appendRow row) := rfl

theorem perform_appendInput (input : Digest) (j : Journal) :
    (appendInput input).perform j = .ok (.row (j.appendInput input).size) (j.appendInput input) :=
  rfl

theorem perform_appendValues (values : List Value) (j : Journal) :
    (appendValues values).perform j =
      match j.appendValues values with
      | .ok j' => .ok (.row j'.size) j'
      | .error e => .error e j := by
  have hstep : (appendValues values).perform j = (do
      let row ← ofExcept ((j.nextRow values).mapError .value)
      return Answer.row (← pushRow row) : Action Answer) j := rfl
  rw [hstep, Journal.appendValues]
  cases j.nextRow values <;> rfl

theorem perform_path (choice : PathChoice) (j : Journal) :
    (path choice).perform j =
      match choice.path j with
      | .ok p j' => .ok (.path p) j'
      | .error e j' => .error e j' := by
  cases h : choice.path j with
  | ok p j' => exact run_bind_ok h
  | error e j' => exact run_bind_error h

theorem perform_trim (n : Nat) (j : Journal) :
    (trim n).perform j =
      match j.trim n with
      | .ok j' => .ok .trimmed j'
      | .error e => .error e j := by
  have h := cut_eq n j
  cases htrim : j.trim n with
  | ok j' => exact run_bind_ok (by rw [h, htrim])
  | error e => exact run_bind_error (by rw [h, htrim])

theorem perform_witness (w : Witness) (j : Journal) :
    (witness w).perform j =
      match j.witness w with
      | .ok (a, j') => .ok (.attestation a) j'
      | .error e => .error e j := by
  have h := attest_eq w j
  cases hw : j.witness w with
  | ok answer => exact run_bind_ok (by rw [h, hw])
  | error e => exact run_bind_error (by rw [h, hw])

theorem perform_error {op : Operation} (h : op.perform j = .error e j') :
    ∃ paths, j' = { j with paths } := by
  cases op with
  | appendRow row =>
    rw [perform_appendRow] at h
    cases h
  | appendInput input =>
    rw [perform_appendInput] at h
    cases h
  | appendValues values =>
    rw [perform_appendValues] at h
    split at h <;> cases h
    exact ⟨j.paths, rfl⟩
  | trim n =>
    rw [perform_trim] at h
    split at h <;> cases h
    exact ⟨j.paths, rfl⟩
  | witness w =>
    rw [perform_witness] at h
    split at h <;> cases h
    exact ⟨j.paths, rfl⟩
  | path choice =>
    obtain ⟨paths, ⟨p, hpath⟩ | ⟨e, hpath⟩⟩ := choice.path_cases j <;>
      rw [perform_path, hpath] at h <;> cases h
    exact ⟨paths, rfl⟩

/-- All that an operation can make of a journal, the rows apart that it may cut off. -/
inductive Leaves (op : Operation) (j : Journal) : Journal → Prop where
  | paths (paths : Cache PathRequest Path) : Leaves op j { j with paths }
  | input (input : Digest) : Leaves op j (j.appendInput input)
  | row (row : Row) : Leaves op j (j.appendRow row)
  | cut {n : Nat} {j' : Journal} (hop : op = trim n) (h : j.trim n = .ok j') : Leaves op j j'
  | record (a : RowAttestation) : Leaves op j (j.record a)

theorem leaves (op : Operation) (j : Journal) : op.Leaves j (op.leave j) := by
  unfold leave
  cases hperform : op.perform j with
  | error e j' =>
    obtain ⟨paths, rfl⟩ := perform_error hperform
    exact .paths paths
  | ok a j' =>
    cases op with
    | appendRow row =>
      cases (perform_appendRow row j).symm.trans hperform
      exact .row row
    | appendInput input =>
      cases (perform_appendInput input j).symm.trans hperform
      exact .input input
    | appendValues values =>
      rw [perform_appendValues] at hperform
      split at hperform <;> cases hperform
      next happend =>
      obtain ⟨row, -, happend⟩ := bind_eq_ok.1 happend
      obtain rfl := pure_eq_ok.1 happend
      exact .row row
    | trim n =>
      rw [perform_trim] at hperform
      split at hperform <;> cases hperform
      next htrim => exact .cut rfl htrim
    | witness w =>
      rw [perform_witness] at hperform
      split at hperform <;> cases hperform
      next hw =>
      obtain ⟨rfl, -⟩ := witness_eq_ok hw
      exact .record _
    | path choice =>
      obtain ⟨paths, ⟨p, hpath⟩ | ⟨e, hpath⟩⟩ := choice.path_cases j <;>
        rw [perform_path, hpath] at hperform <;> cases hperform
      exact .paths paths

end Operation

namespace Journal

variable {j : Journal}

inductive Opened : Journal → Prop where
  | new {info : LedgerInfo} {settings : Settings} {j : Journal}
    (h : Journal.new info settings = .ok j) : Opened j
  | withTableSalt {j j' : Journal} {salt : TableSalt} (hj : Opened j)
    (h : j.withTableSalt salt = .ok j') : Opened j'

theorem Opened.reachable (opened : j.Opened) : j.Reachable := by
  induction opened with
  | new h => exact .new h
  | withTableSalt _ h ih => exact ih.withTableSalt h

theorem Opened.sound (opened : j.Opened) : j.Sound := opened.reachable.sound

theorem Sound.leave (sound : j.Sound) (op : Operation) : (op.leave j).Sound := by
  cases op with
  | appendRow row =>
    rw [Operation.leave, Operation.perform_appendRow]
    exact sound.appendRow row
  | appendInput input =>
    rw [Operation.leave, Operation.perform_appendInput]
    exact sound.appendInput input
  | appendValues values =>
    rw [Operation.leave, Operation.perform_appendValues]
    cases h : j.appendValues values with
    | ok j' => exact sound.appendValues h
    | error e => exact sound
  | trim n =>
    rw [Operation.leave, Operation.perform_trim]
    cases h : j.trim n with
    | ok j' => exact sound.trim h
    | error e => exact sound
  | witness w =>
    rw [Operation.leave, Operation.perform_witness]
    cases h : j.witness w with
    | ok answer => exact sound.witness h
    | error e => exact sound
  | path choice =>
    obtain ⟨r, hr⟩ := exists_request choice j
    rw [Operation.leave, Operation.perform_path, hr]
    obtain ⟨paths, hpaths, ⟨e, h⟩ | ⟨p, h, -⟩⟩ := sound.path r <;> rw [h] <;> exact hpaths

theorem Sound.after (sound : j.Sound) (ops : List Operation) : (j.after ops).Sound := by
  induction ops generalizing j with
  | nil => exact sound
  | cons op ops ih => exact ih (sound.leave op)

structure InStep (j : Journal) : Prop where
  rows : ∀ n row, j.rows.get? n = some row →
    1 ≤ n ∧ n ≤ j.size ∧ j.ledger.inputHash n = .ok (row.hash j.algorithm.digest)
  attestations : ∀ a ∈ j.attestations,
    1 ≤ a.row ∧ a.row ≤ j.size ∧ j.ledger.rowHash a.row = .ok a.attestation.state

theorem Sound.inStep (sound : j.Sound) : j.InStep where
  rows n row h := ⟨(sound.row_le h).1, (sound.row_le h).2, sound.rows n row h⟩
  attestations a ha := by
    obtain ⟨hpos, hstate⟩ := sound.attestations a ha
    exact ⟨Nat.pos_of_ne_zero hpos, Ledger.le_size_of_rowHash hstate, hstate⟩

/-- After any run from an opened journal, whatever the witnesses answer and whatever fails, every
retained row has the input hash of its row in the ledger and every attestation the hash of its row;
and an operation that fails then leaves the ledger, the rows and the attestations as they are. -/
theorem inStep_after (opened : j.Opened) (ops : List Operation) :
    (j.after ops).InStep ∧ ∀ (op : Operation) (e : Error) (j' : Journal),
      op.perform (j.after ops) = .error e j' →
        j'.ledger = (j.after ops).ledger ∧ j'.rows = (j.after ops).rows ∧
          j'.attestations = (j.after ops).attestations := by
  refine ⟨(opened.sound.after ops).inStep, fun op e j' h => ?_⟩
  obtain ⟨paths, rfl⟩ := Operation.perform_error h
  exact ⟨rfl, rfl, rfl⟩

def forgetful : Journal :=
  ⟨.new .table "shelf", .new .sha256, none, .empty, [], ⟨1, Nat.one_pos, [], 0, 0⟩⟩

theorem opened_forgetful : forgetful.Opened := by
  have hsettings : { Settings.default with cacheCapacity := 1 }.validate = .ok () := by
    decide +kernel
  have hnew : Journal.new (.new .table "shelf") { Settings.default with cacheCapacity := 1 } =
      .ok forgetful := by
    rw [Journal.new, hsettings]
    rfl
  exact .new hnew

def reshelved : List Operation :=
  [.appendRow ⟨[.ofString "atlas"]⟩, .witness fun state => .ok ⟨state, 1, []⟩,
    .appendInput .sentinel, .witness fun state => .ok ⟨state, 2, []⟩, .path .state, .trim 1,
    .path (.inclusion 2), .appendRow ⟨[.ofString "novel"]⟩,
    .witness fun _ => .error (.unavailable "timeout"), .witness fun _ => .ok ⟨.sentinel, 3, []⟩,
    .trim 3]

theorem inStep_after_reshelved :
    (forgetful.after reshelved).InStep ∧ (forgetful.after reshelved).rows.keys = [1, 2] ∧
      (forgetful.after reshelved).attestations.map RowAttestation.row = [1] ∧
      ∃ e j', (Operation.trim 3).perform (forgetful.after reshelved) = .error e j' ∧
        j'.ledger = (forgetful.after reshelved).ledger ∧
        j'.rows = (forgetful.after reshelved).rows ∧
        j'.attestations = (forgetful.after reshelved).attestations := by
  obtain ⟨inStep, frame⟩ := inStep_after opened_forgetful reshelved
  have hrun : (forgetful.after reshelved).rows.keys = [1, 2] ∧
      (forgetful.after reshelved).attestations.map RowAttestation.row = [1] ∧
      (forgetful.after reshelved).ledger.size < 3 := by decide +kernel
  obtain ⟨hrows, hattestations, hsize⟩ := hrun
  have hfails : ∃ e j', (Operation.trim 3).perform (forgetful.after reshelved) = .error e j' := by
    rw [Operation.perform_trim, Journal.trim, Ledger.trim, if_pos hsize]
    exact ⟨_, _, rfl⟩
  obtain ⟨e, j', h⟩ := hfails
  exact ⟨inStep, hrows, hattestations, e, j', h, frame _ e j' h⟩

end Journal

end SkipChain
