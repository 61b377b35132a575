import SkipChain.Ledger.Operation
/-!
Ledgers that stand in front of others. One that passes on what is read and appended, and refuses to
be cut back, runs as the ledger behind it does when it is never asked to be.
-/
namespace SkipChain

open LedgerStore (after transcript)

/-- A kind of ledger passes on what is read and appended to the one that `inner` gives, and refuses
to be cut back. -/
structure Forwards {W L : Type} [LedgerStore W] [LedgerStore L] (inner : W → L) : Prop where
  state (w : W) : LedgerStore.state w = LedgerStore.state (inner w)
  append (w : W) (input : Digest) :
    (LedgerStore.append w input).map inner id = LedgerStore.append (inner w) input
  appendAll (w : W) (inputs : List Digest) :
    (LedgerStore.appendAll w inputs).map inner id = LedgerStore.appendAll (inner w) inputs
  trim (w : W) (n : Nat) : LedgerStore.trim w n = .error .trimUnsupported

/-- A run that starts from `w` gives what it gives from the ledger behind `w` with the trims left
out: the same answers, the same ledger and the same state. The trims are refused. -/
structure RunsUntrimmed {W L : Type} [LedgerStore W] [LedgerStore L] (inner : W → L) (w : W)
    (ops : List LedgerOperation) : Prop where
  ledger : inner (after w ops) = after (inner w) (ops.filter (!·.isTrim))
  state : LedgerStore.state (after w ops) =
    LedgerStore.state (after (inner w) (ops.filter (!·.isTrim)))
  answers : (transcript w ops).filter (!·.1.isTrim) = transcript (inner w) (ops.filter (!·.isTrim))
  refused : ∀ entry ∈ transcript w ops, entry.1.isTrim → entry.2 = .error .trimUnsupported

namespace Forwards

variable {W L : Type} [LedgerStore W] [LedgerStore L] {inner : W → L}

theorem perform_trim (forwards : Forwards inner) {op : LedgerOperation} (h : op.isTrim) (w : W) :
    op.perform w = (.error .trimUnsupported, w) := by
  cases op with
  | trim n => simp only [LedgerOperation.perform, forwards.trim]
  | _ => cases h

theorem perform (forwards : Forwards inner) {op : LedgerOperation} (h : op.isTrim = false) (w : W) :
    (op.perform w).map id inner = op.perform (inner w) := by
  cases op with
  | append input => simp [LedgerOperation.perform, ← forwards.append]
  | appendAll inputs => simp [LedgerOperation.perform, ← forwards.appendAll]
  | trim n => cases h

theorem runsUntrimmed (forwards : Forwards inner) (w : W) (ops : List LedgerOperation) :
    RunsUntrimmed inner w ops := by
  suffices inner (after w ops) = after (inner w) (ops.filter (!·.isTrim)) ∧
      (transcript w ops).filter (!·.1.isTrim) = transcript (inner w) (ops.filter (!·.isTrim)) ∧
      ∀ entry ∈ transcript w ops, entry.1.isTrim → entry.2 = .error .trimUnsupported by
    obtain ⟨hledger, hanswers, hrefused⟩ := this
    exact ⟨hledger, by rw [forwards.state, hledger], hanswers, hrefused⟩
  induction ops generalizing w with
  | nil => exact ⟨rfl, rfl, fun entry hentry => nomatch hentry⟩
  | cons op ops ih =>
    obtain ⟨hledger, hanswers, hrefused⟩ := ih (op.perform w).2
    cases htrim : op.isTrim with
    | true =>
      have hstay := forwards.perform_trim htrim w
      rw [hstay] at hledger hanswers hrefused
      have hkept : (op :: ops).filter (!·.isTrim) = ops.filter (!·.isTrim) :=
        List.filter_cons_of_neg (by simp [htrim])
      rw [hkept, transcript, hstay]
      refine ⟨?_, ?_, List.forall_mem_cons.2 ⟨fun _ => rfl, hrefused⟩⟩
      · rw [after, List.foldl_cons, hstay]
        exact hledger
      · rw [List.filter_cons_of_neg (by simp [htrim]), hanswers]
    | false =>
      have hstep := forwards.perform htrim w
      have hkept : (op :: ops).filter (!·.isTrim) = op :: ops.filter (!·.isTrim) :=
        List.filter_cons_of_pos (by simp [htrim])
      rw [hkept, transcript, transcript, ← hstep]
      refine ⟨?_, ?_, List.forall_mem_cons.2 ⟨fun h => ?_, hrefused⟩⟩
      · rw [after, after, List.foldl_cons, List.foldl_cons, ← hstep]
        exact hledger
      · rw [List.filter_cons_of_pos (by simp [htrim]), hanswers]
        rfl
      · exact absurd (htrim.symm.trans h) Bool.false_ne_true

end Forwards

theorem forwards_appendOnly : Forwards (AppendOnly.inner : AppendOnly Ledger → Ledger) where
  state _ := rfl
  append _ _ := rfl
  appendAll _ _ := rfl
  trim _ _ := rfl

theorem forwards_oneByOne : Forwards (OneByOne.inner : OneByOne Ledger → Ledger) where
  state _ := rfl
  append _ _ := rfl
  appendAll w inputs := by
    -- each row's number is the size that the next row starts from
    have hfold (w : OneByOne Ledger) : inputs.foldl (fun r input => LedgerStore.append r.1 input)
        (w, LedgerStore.size w) = (⟨w.inner.appendAll inputs⟩, (w.inner.appendAll inputs).size) := by
      induction inputs generalizing w with
      | nil => rfl
      | cons input inputs ih => exact ih ⟨w.inner.append input⟩
    exact congrArg (Prod.map OneByOne.inner id) (hfold w)
  trim _ _ := rfl

end SkipChain
