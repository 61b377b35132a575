import SkipChain.Proofs.Journal.Operation
/-!
Remembering paths cannot be noticed. Whatever a journal has been through, the answer to a request
for a path is the one its ledger gives now.
-/
namespace SkipChain

theorem Cache.getOrCompute_fst {κ α ε : Type} [DecidableEq κ] {c : Cache κ α}
    {compute : κ → Except ε α} (h : c.Holds fun k a => compute k = .ok a) (key : κ) :
    (c.getOrCompute key fun _ => compute key).1 = compute key := by
  unfold getOrCompute
  cases hfound : c.peek? key with
  | some value => exact (h.peek? hfound).symm
  | none => cases hresult : compute key <;> rfl

namespace Journal

variable {j : Journal}

theorem Sound.path_sound (sound : j.Sound) (r : PathRequest) :
    ∃ paths, ({ j with paths } : Journal).Sound ∧ Journal.path r j = match r.build j.ledger with
      | .ok p => .ok p { j with paths }
      | .error e => .error (.ledger e) { j with paths } := by
  have hright : j.paths.Holds fun r p => r.build j.ledger = .ok p :=
    sound.paths.mono fun r p built => Ledger.path_eq_ok_iff.2 built
  have hanswer := Cache.getOrCompute_fst hright r
  obtain ⟨-, hleft⟩ := sound.paths.getOrCompute r (fun _ => r.build j.ledger)
    fun p hp => Ledger.path_eq_ok_iff.1 hp
  unfold Journal.path
  generalize j.paths.getOrCompute r (fun _ => r.build j.ledger) = given at hanswer hleft
  obtain ⟨answer, paths⟩ := given
  obtain rfl : answer = r.build j.ledger := hanswer
  refine ⟨paths, ⟨sound.reachable, sound.rows, sound.attestations, hleft⟩, ?_⟩
  cases r.build j.ledger <;> rfl

theorem Sound.path_eq (sound : j.Sound) (r : PathRequest) :
    ∃ paths, Journal.path r j = match r.build j.ledger with
      | .ok p => .ok p { j with paths }
      | .error e => .error (.ledger e) { j with paths } := by
  obtain ⟨paths, -, hpath⟩ := sound.path_sound r
  exact ⟨paths, hpath⟩

/-- Wherever in a run from an opened journal a path is asked for, the answer is what the ledger as
it is then builds for the targets, sorted and each of them once, and nothing is changed but which
paths are remembered. -/
theorem path_after (opened : j.Opened) (ops : List Operation) (targets : List Nat)
    (low high : Nat) :
    (Operation.path (.custom targets low high)).answer (j.after ops) =
        (((j.after ops).ledger.path targets.mergeSort.dedup low high).map .path).mapError .ledger ∧
      ∃ paths, (Operation.path (.custom targets low high)).leave (j.after ops) =
        { j.after ops with paths } := by
  obtain ⟨paths, hpath⟩ := (opened.sound.after ops).path_eq ⟨.ofList targets, low, high⟩
  have hperform := Operation.perform_path (.custom targets low high) (j.after ops)
  rw [PathChoice.path, hpath, PathRequest.build, NatSet.toList_ofList] at hperform
  rw [Operation.answer, Operation.leave, hperform]
  cases (j.after ops).ledger.path targets.mergeSort.dedup low high with
  | ok p => exact ⟨rfl, paths, rfl⟩
  | error e => exact ⟨rfl, paths, rfl⟩

def replaced : List Operation :=
  [.appendRow ⟨[.ofString "atlas"]⟩, .appendRow ⟨[.ofString "novel"]⟩, .path (.custom [2, 1] 0 2),
    .path (.inclusion 1), .path (.custom [1, 2] 0 2), .trim 1, .appendRow ⟨[.ofString "diary"]⟩]

theorem path_after_replaced :
    ∃ p, (Operation.path (.custom [2, 1, 2] 0 2)).answer (forgetful.after replaced) =
        .ok (.path p) ∧
      (forgetful.after replaced).ledger.path [1, 2] 0 2 = .ok p ∧
      (forgetful.after (replaced.take 2)).ledger.path [1, 2] 0 2 ≠ .ok p := by
  have hanswer := (path_after opened_forgetful replaced [2, 1, 2] 0 2).1
  have htargets : [2, 1, 2].mergeSort.dedup = [1, 2] := (NatSet.toList_ofList [2, 1, 2]).symm
  rw [htargets] at hanswer
  have hchanged : (forgetful.after (replaced.take 2)).ledger.path [1, 2] 0 2 ≠
      (forgetful.after replaced).ledger.path [1, 2] 0 2 := by decide +kernel
  have hbuilt : ((forgetful.after replaced).ledger.path [1, 2] 0 2).isOk := by decide +kernel
  generalize (forgetful.after replaced).ledger.path [1, 2] 0 2 = built at hanswer hchanged hbuilt ⊢
  cases built with
  | ok p => exact ⟨p, hanswer, rfl, hchanged⟩
  | error e => cases hbuilt

end Journal

end SkipChain
