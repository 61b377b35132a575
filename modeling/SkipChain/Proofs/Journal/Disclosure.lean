import SkipChain.Journal.Disclosure
import SkipChain.Proofs.Journal.Reachable
import SkipChain.Proofs.Path.Completeness
/-!
What a journal hands over when it discloses a part of itself: rows and attestations of its ledger,
and paths of its ledger that prove them.
-/
namespace SkipChain

namespace Journal

variable {j j' : Journal}

theorem Reachable.path_eq_ok (reachable : j.Reachable) {r : PathRequest} {p : Path}
    (h : Journal.path r j = .ok p j') :
    j'.Reachable ∧ (∃ paths, j' = { j with paths }) ∧
      j.ledger.Built (Ledger.targetSet r.targets.toList) r.low r.high p := by
  obtain ⟨paths, -, ⟨e, hanswer⟩ | ⟨q, hanswer, built⟩⟩ := reachable.sound.path r
  · rw [hanswer] at h
    cases h
  · have hsame := hanswer.symm.trans h
    cases hsame
    exact ⟨reachable.path (.inl ⟨_, h⟩), ⟨paths, rfl⟩, built⟩

theorem exists_request (c : PathChoice) (j : Journal) : ∃ r, c.path j = Journal.path r j := by
  cases c <;> exact ⟨_, rfl⟩

theorem Reachable.paths_eq_ok (reachable : j.Reachable) {cs : List PathChoice} {ps : List Path}
    (h : cs.mapM PathChoice.path j = .ok ps j') :
    j'.Reachable ∧ (∃ paths, j' = { j with paths }) ∧
      ∀ p ∈ ps, ∃ targets low high, j.ledger.Built targets low high p := by
  induction cs generalizing j ps with
  | nil =>
    obtain ⟨rfl, rfl⟩ := run_pure_eq_ok.1 h
    exact ⟨reachable, ⟨j.paths, rfl⟩, by simp⟩
  | cons c cs ih =>
    rw [List.mapM_cons] at h
    obtain ⟨p, i, hp, h⟩ := run_bind_eq_ok.1 h
    obtain ⟨qs, i', hqs, h⟩ := run_bind_eq_ok.1 h
    obtain ⟨rfl, rfl⟩ := run_pure_eq_ok.1 h
    obtain ⟨r, hr⟩ := exists_request c j
    obtain ⟨hreachable, ⟨paths, rfl⟩, built⟩ := reachable.path_eq_ok (hr ▸ hp)
    obtain ⟨hreachable', ⟨paths', hsame⟩, hrest⟩ := ih hreachable hqs
    refine ⟨hreachable', ⟨paths', hsame⟩, fun q hq => ?_⟩
    rcases List.mem_cons.1 hq with rfl | hq
    · exact ⟨_, _, _, built⟩
    · exact hrest q hq

end Journal

theorem PathChoice.path_cases (c : PathChoice) (j : Journal) :
    ∃ paths, (∃ p, c.path j = .ok p { j with paths }) ∨
      ∃ e, c.path j = .error e { j with paths } := by
  obtain ⟨r, hr⟩ := Journal.exists_request c j
  rw [hr]
  exact Journal.path_cases r j

def Package.Covers (k : Package) (size n : Nat) : Prop :=
  ∃ p ∈ k.paths, (p.low = 0 ∧ p.high = size) ∧ p.isExpanded n

namespace Disclosure

variable {d : Disclosure} {j j' : Journal} {k : Package} {n : Nat}

structure Packages (d : Disclosure) (j : Journal) (k : Package) : Prop where
  info : k.info = j.info
  rawText : k.rawText = d.rawText
  sourceRows : d.sourceRows j = .ok k.sourceRows
  attestations : k.attestations = if d.attestations then j.attestations else []
  paths : ∀ p ∈ k.paths, ∃ targets low high, j.ledger.Built targets low high p
  covered : ∃ rows, d.textRows j = .ok rows ∧
    ∀ n ∈ k.sourceRows.map SourceRow.row ++ k.attestations.map RowAttestation.row ++ rows, n ≠ 0 →
      k.Covers j.size n

theorem sourceRows_eq_ok {rs : List SourceRow} (h : d.sourceRows j = .ok rs) :
    rs.map SourceRow.row = (NatSet.ofList d.rows).toList ∧
      ∀ r ∈ rs, ∃ row, j.rows.get? r.row = some row ∧
        r.cells = row.redact j.algorithm.digest d.redacted := by
  unfold sourceRows at h
  generalize (NatSet.ofList d.rows).toList = ns at h
  induction ns generalizing rs with
  | nil =>
    obtain rfl := pure_eq_ok.1 h
    simp
  | cons n ns ih =>
    rw [List.mapM_cons] at h
    obtain ⟨r, hr, h⟩ := bind_eq_ok.1 h
    obtain ⟨rs, hrs, h⟩ := bind_eq_ok.1 h
    obtain rfl := pure_eq_ok.1 h
    obtain ⟨hnumbers, hrows⟩ := ih hrs
    split at hr
    · next row hrow =>
      cases hr
      refine ⟨by simp [hnumbers], fun s hs => ?_⟩
      rcases List.mem_cons.1 hs with rfl | hs
      · exact ⟨row, hrow, rfl⟩
      · exact hrows s hs
    · cases hr

theorem package_eq_ok (reachable : j.Reachable) (h : d.package j = .ok k j') :
    d.Packages j k ∧ j'.Reachable ∧ ∃ paths, j' = { j with paths } := by
  obtain ⟨ps, i, hps, h⟩ := run_bind_eq_ok.1 h
  obtain ⟨hreachable, ⟨paths, rfl⟩, hpaths⟩ := reachable.paths_eq_ok hps
  obtain ⟨_, _, hget, h⟩ := run_bind_eq_ok.1 h
  cases hget
  obtain ⟨rs, _, hrs, h⟩ := run_bind_eq_ok.1 h
  obtain ⟨hshown, rfl⟩ := run_ofExcept_eq_ok.1 hrs
  obtain ⟨rows, _, hrows, h⟩ := run_bind_eq_ok.1 h
  obtain ⟨hspelled, rfl⟩ := run_ofExcept_eq_ok.1 hrows
  dsimp only at h
  generalize hattested : (if d.attestations = true then j.attestations else []) = attested at h
  split at h
  · next hnone =>
    obtain ⟨_, _, hcovering, h⟩ := run_bind_eq_ok.1 h
    obtain ⟨rfl, rfl⟩ := run_pure_eq_ok.1 hcovering
    obtain ⟨rfl, rfl⟩ := run_pure_eq_ok.1 h
    refine ⟨⟨rfl, rfl, hshown, hattested.symm, ?_, rows, hspelled, ?_⟩, hreachable, paths, rfl⟩
    · simpa using hpaths
    · intro n hn
      rw [List.isEmpty_iff.1 hnone] at hn
      cases hn
  · obtain ⟨_, _, hcovering, h⟩ := run_bind_eq_ok.1 h
    obtain ⟨rfl, rfl⟩ := run_pure_eq_ok.1 h
    obtain ⟨p, hp, rfl⟩ := run_map_eq_ok.1 hcovering
    obtain ⟨hreachable', ⟨paths', rfl⟩, built⟩ := hreachable.path_eq_ok hp
    refine ⟨⟨rfl, rfl, hshown, hattested.symm, ?_, rows, hspelled, ?_⟩, hreachable', paths', rfl⟩
    · intro q hq
      rcases List.mem_append.1 hq with hq | hq
      · exact hpaths q hq
      · rw [List.mem_singleton.1 hq]
        exact ⟨_, _, _, built⟩
    · intro n hn hn0
      refine ⟨p, by simp [List.singleton], ⟨built.low_eq, built.high_eq⟩, ?_⟩
      exact built.target_expanded (Ledger.mem_targetSet.2 ⟨NatSet.mem_ofList.2 hn, hn0⟩) (.inl rfl)

end Disclosure

namespace Morsel

variable {m m' : Morsel}

theorem disclose_eq_ok {d : Disclosure} {j j' : Journal} (h : m.disclose d j = .ok m' j') :
    j.algorithm = m.algorithm ∧ ∃ k, d.package j = .ok k j' ∧ m.add k = .ok m' := by
  obtain ⟨_, _, hget, h⟩ := run_bind_eq_ok.1 h
  cases hget
  dsimp only at h
  split at h
  · cases h
  · next halgorithm =>
    obtain ⟨k, _, hk, h⟩ := run_bind_eq_ok.1 h
    obtain ⟨hadd, rfl⟩ := run_ofExcept_eq_ok.1 h
    exact ⟨not_not.1 halgorithm, k, hk, mapError_eq_ok.1 hadd⟩

end Morsel

end SkipChain
