import Mathlib.Data.List.Induction
import SkipChain.Journal.Consultation
import SkipChain.Proofs.Journal.Operation
/-!
What happens to a journal while a witness thinks. Attestations stay true exactly as long as no answer
is recorded to a question that has become stale, and a question becomes stale only when its row is
cut off.
-/
namespace SkipChain

namespace Ledger

variable {l l' : Ledger} {m n : Nat}

theorem Continues.refl (l : Ledger) (m : Nat) : l.Continues m l := ⟨rfl, fun _ _ => rfl⟩

theorem Continues.mono (h : l.Continues m l') (hn : n ≤ m) : l.Continues n l' :=
  ⟨h.algorithm_eq, fun k hk => h.row?_eq k (Nat.le_trans hk hn)⟩

end Ledger

structure Question.Current (q : Question) (j : Journal) : Prop where
  pos : 1 ≤ q.row
  le_size : q.row ≤ j.size
  rowHash : j.ledger.rowHash q.row = .ok q.state

namespace Journal

variable {j j' : Journal} {q : Question} {m : Nat}
  {answer : Except WitnessError Attestation} {a : RowAttestation}

def Truthful (j : Journal) : Prop :=
  ∀ a ∈ j.attestations, 1 ≤ a.row ∧ a.row ≤ j.size ∧ j.ledger.rowHash a.row = .ok a.attestation.state

instance (j : Journal) : Decidable j.Truthful :=
  inferInstanceAs (Decidable (∀ a ∈ j.attestations,
    1 ≤ a.row ∧ a.row ≤ j.size ∧ j.ledger.rowHash a.row = .ok a.attestation.state))

theorem Sound.truthful (sound : j.Sound) : j.Truthful := sound.inStep.attestations

theorem continues_leave {op : Operation} (hm : m ≤ j.size) (h : ∀ n, op = .trim n → m ≤ n) :
    j.ledger.Continues m (op.leave j).ledger := by
  have hpush (input : Digest) : j.ledger.Continues m (j.ledger.append input) :=
    (j.ledger.continues_append input).mono hm
  have leaves := op.leaves j
  generalize op.leave j = left at leaves ⊢
  cases leaves with
  | paths paths => exact .refl _ _
  | input input => exact hpush input
  | row row => exact hpush _
  | cut hop htrim =>
    obtain ⟨l, hl, rfl⟩ := trim_eq_ok htrim
    exact (Ledger.continues_trim hl).mono (h _ hop)
  | record a => exact .refl _ _

theorem ask_eq_ok (h : j.ask = .ok q) : q.Current j := by
  unfold ask at h
  split at h
  · cases h
  · next hsize =>
    cases h
    exact ⟨Nat.pos_of_ne_zero hsize, Nat.le_refl _, Ledger.rowHash_eq_hashBelow (Nat.le_refl _)⟩

theorem answered_eq_ok {row : Nat} {state : Digest} (h : answered row state answer = .ok a) :
    a.row = row ∧ a.attestation.state = state := by
  unfold answered at h
  split at h
  · cases h
  · split at h
    · cases h
    · next hstate =>
      cases h
      exact ⟨rfl, not_not.1 hstate⟩

theorem settle_eq (q : Question) (answer : Except WitnessError Attestation) (j : Journal) :
    settle q answer j = match answered q.row q.state answer with
      | .ok a => .ok a (j.record a)
      | .error e => .error e j := by
  have hstep : settle q answer j = (do
      let a ← ofExcept (answered q.row q.state answer)
      modify fun j => j.record a
      return a : Action RowAttestation) j := rfl
  rw [hstep]
  cases answered q.row q.state answer <;> rfl

theorem attest_eq_settle (w : Witness) (j : Journal) :
    attest w j = match j.ask with
      | .ok q => settle q (w q.state) j
      | .error e => .error e j := by
  rw [attest_eq, Journal.witness, ask]
  by_cases hsize : j.size = 0
  · rw [if_pos hsize, if_pos hsize]
    rfl
  · rw [if_neg hsize, if_neg hsize]
    simp only [settle_eq]
    cases answered j.size j.state (w j.state) <;> rfl

theorem settled_of_answered (h : answered q.row q.state answer = .ok a) :
    j.settled q answer = j.record a := by
  rw [settled, settle_eq, h]

theorem settled_of_refused {e : Error} (h : answered q.row q.state answer = .error e) :
    j.settled q answer = j := by
  rw [settled, settle_eq, h]

theorem Sound.settled (sound : j.Sound)
    (h : ∀ a, answered q.row q.state answer = .ok a → q.Current j) :
    (j.settled q answer).Sound := by
  cases hanswered : answered q.row q.state answer with
  | error e => rwa [settled_of_refused hanswered]
  | ok a =>
    obtain ⟨hpos, -, hhash⟩ := h a hanswered
    obtain ⟨hrow, hstate⟩ := answered_eq_ok hanswered
    rw [settled_of_answered hanswered]
    refine ⟨sound.reachable, sound.rows, fun b hb => ?_, sound.paths⟩
    rcases List.mem_append.1 hb with hb | hb
    · exact sound.attestations b hb
    · rw [List.mem_singleton.1 hb, hrow, hstate]
      exact ⟨Nat.ne_of_gt hpos, hhash⟩

end Journal

theorem Question.Current.leave {q : Question} {j : Journal} (current : q.Current j)
    {op : Operation} (h : ∀ n, op = .trim n → q.row ≤ n) : q.Current (op.leave j) := by
  have hhash := (Journal.continues_leave current.le_size h).rowHash (Nat.le_refl _) current.rowHash
  exact ⟨current.pos, Ledger.le_size_of_rowHash hhash, hhash⟩

namespace Consultation

open Journal

variable {s : Consultation} {events before : List Event} {e : Event}

def Records (s : Consultation) (q : Question) (answer : Except WitnessError Attestation) : Prop :=
  q ∈ s.questions ∧ ∃ a, answered q.row q.state answer = .ok a

theorem after_append (s : Consultation) (before : List Event) (e : Event) :
    s.after (before ++ [e]) = (s.after before).next e :=
  List.foldl_concat ..

theorem next_answer_of_records {q : Question} {answer : Except WitnessError Attestation}
    (h : s.Records q answer) :
    ∃ a, answered q.row q.state answer = .ok a ∧
      (s.next (.answer q answer)).journal = s.journal.record a := by
  obtain ⟨hasked, a, ha⟩ := h
  refine ⟨a, ha, ?_⟩
  rw [next, if_pos hasked]
  exact settled_of_answered ha

theorem sound_next (sound : s.journal.Sound)
    (h : ∀ q answer, e = .answer q answer → s.Records q answer → q.Current s.journal) :
    (s.next e).journal.Sound := by
  cases e with
  | perform op => exact sound.leave op
  | ask =>
    rw [next]
    split <;> exact sound
  | answer q answer =>
    rw [next]
    split
    · next hasked => exact sound.settled fun a ha => h q answer rfl ⟨hasked, a, ha⟩
    · exact sound

theorem current_next (current : ∀ q ∈ s.questions, q.Current s.journal)
    (h : ∀ n, e = .perform (.trim n) → ∀ q ∈ s.questions, q.row ≤ n) :
    ∀ q ∈ (s.next e).questions, q.Current (s.next e).journal := by
  cases e with
  | perform op =>
    intro q hq
    exact (current q hq).leave fun n hn => h n (congrArg _ hn) q hq
  | ask =>
    rw [next]
    split
    · next asked hasked => exact List.forall_mem_cons.2 ⟨ask_eq_ok hasked, current⟩
    · exact current
  | answer asked answer =>
    rw [next]
    split
    · intro q hq
      have hcurrent := current q (List.mem_of_mem_erase hq)
      cases hanswered : answered asked.row asked.state answer with
      | error e => rwa [settled_of_refused hanswered]
      | ok a =>
        rw [settled_of_answered hanswered]
        exact ⟨hcurrent.pos, hcurrent.le_size, hcurrent.rowHash⟩
    · exact current

def Timely (s : Consultation) (events : List Event) : Prop :=
  ∀ before q answer, before ++ [.answer q answer] <+: events →
    (s.after before).Records q answer → q.Current (s.after before).journal

/-- No row is cut off while a witness is asked for it. -/
def Patient (s : Consultation) (events : List Event) : Prop :=
  ∀ before n, before ++ [.perform (.trim n)] <+: events →
    ∀ q ∈ (s.after before).questions, q.row ≤ n

theorem sound_after (sound : s.journal.Sound) (timely : s.Timely events)
    (hbefore : before <+: events) : (s.after before).journal.Sound := by
  induction before using List.reverseRecOn with
  | nil => exact sound
  | append_singleton before e ih =>
    rw [after_append]
    apply sound_next (ih ((List.prefix_append _ _).trans hbefore))
    rintro q answer rfl
    exact timely before q answer hbefore

theorem current_after (current : ∀ q ∈ s.questions, q.Current s.journal)
    (patient : s.Patient events) (hbefore : before <+: events) :
    ∀ q ∈ (s.after before).questions, q.Current (s.after before).journal := by
  induction before using List.reverseRecOn with
  | nil => exact current
  | append_singleton before e ih =>
    rw [after_append]
    apply current_next (ih ((List.prefix_append _ _).trans hbefore))
    rintro n rfl
    exact patient before n hbefore

/-- Over a run of operations, questions and answers in any order, from a journal as it is opened, all
attestations are true at all times if and only if no question is stale when its answer is recorded.
This is so when no row is cut off while a witness is asked for it. -/
theorem truthful_iff {j : Journal} (opened : j.Opened) (events : List Event) :
    ((∀ before, before <+: events → ((⟨j, []⟩ : Consultation).after before).journal.Truthful) ↔
        Timely ⟨j, []⟩ events) ∧
      (Patient ⟨j, []⟩ events → Timely ⟨j, []⟩ events) := by
  refine ⟨⟨?_, ?_⟩, ?_⟩
  · intro truthful before q answer hbefore hrecords
    obtain ⟨a, hanswered, hjournal⟩ := next_answer_of_records hrecords
    -- the ledger is the same before and after, so what is recorded tells of the question
    have htrue := truthful _ hbefore
    rw [after_append, hjournal] at htrue
    have ha := htrue a (List.mem_append_right _ List.mem_cons_self)
    obtain ⟨hrow, hstate⟩ := answered_eq_ok hanswered
    rw [hrow, hstate] at ha
    exact ⟨ha.1, ha.2.1, ha.2.2⟩
  · intro timely before hbefore
    exact (sound_after opened.sound timely hbefore).truthful
  · intro patient before q answer hbefore hrecords
    have hcurrent := current_after (s := ⟨j, []⟩) (fun q hq => nomatch hq) patient
      ((List.prefix_append _ _).trans hbefore)
    exact hcurrent q hrecords.1

def unharmed : List Event :=
  let row : Row := ⟨[.ofString "atlas"]⟩
  let state := (forgetful.appendRow row).state
  [.perform (.appendRow row), .ask, .perform (.appendInput .sentinel), .perform (.trim 1),
    .answer ⟨1, state⟩ (.ok ⟨state, 1, []⟩)]

theorem truthful_iff_unharmed :
    forgetful.Opened ∧ Patient ⟨forgetful, []⟩ unharmed ∧
      (∀ before, before <+: unharmed →
        ((⟨forgetful, []⟩ : Consultation).after before).journal.Truthful) ∧
      (((⟨forgetful, []⟩ : Consultation).after unharmed).journal.attestations.map
        RowAttestation.row) = [1] := by
  have hpatient : Patient ⟨forgetful, []⟩ unharmed := by
    rintro before n ⟨rest, hrest⟩
    have hat : unharmed[before.length]? = some (.perform (.trim n)) := by
      rw [← hrest, List.append_assoc, List.getElem?_append_right (Nat.le_refl _), Nat.sub_self]
      rfl
    have hbefore : before = unharmed.take before.length := by
      rw [← hrest, List.append_assoc, List.take_left]
    rw [hbefore]
    generalize before.length = i at hat
    match i, hat with
    | 3, hat =>
      cases hat
      decide +kernel
    | 4, hat => cases hat
    | i + 5, hat => cases hat
  obtain ⟨htruthful, htimely⟩ := truthful_iff opened_forgetful unharmed
  exact ⟨opened_forgetful, hpatient, htruthful.2 (htimely hpatient), by decide +kernel⟩

def cutOff : List Event :=
  let state := ((forgetful.appendInput .sentinel).appendInput .sentinel).state
  [.perform (.appendInput .sentinel), .perform (.appendInput .sentinel), .ask, .perform (.trim 1),
    .answer ⟨2, state⟩ (.ok ⟨state, 1, []⟩)]

def replaced : List Event :=
  let state := ((forgetful.appendInput .sentinel).appendInput .sentinel).state
  [.perform (.appendInput .sentinel), .perform (.appendInput .sentinel), .ask, .perform (.trim 1),
    .perform (.appendInput state), .answer ⟨2, state⟩ (.ok ⟨state, 1, []⟩)]

theorem not_truthful_cutOff :
    let cut := ((⟨forgetful, []⟩ : Consultation).after cutOff).journal
    let put := ((⟨forgetful, []⟩ : Consultation).after replaced).journal
    forgetful.Opened ∧
      (cut.size = 1 ∧ cut.attestations.map RowAttestation.row = [2] ∧ ¬cut.Truthful) ∧
      (put.size = 2 ∧ put.attestations.map RowAttestation.row = [2] ∧ ¬put.Truthful) :=
  ⟨opened_forgetful, by decide +kernel, by decide +kernel⟩

end Consultation

end SkipChain
