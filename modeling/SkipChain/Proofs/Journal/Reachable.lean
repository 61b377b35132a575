import SkipChain.Journal.Basic
import SkipChain.Proofs.Outcome
import SkipChain.Proofs.Path.Build
/-!
The journals that appending, cutting back, witnessing and asking for paths lead to. In each of them
the retained rows, the attestations and the remembered paths are those of the ledger as it is now.
-/
namespace SkipChain

namespace Cache

variable {κ α ε : Type} [DecidableEq κ] {c : Cache κ α} {key : κ} {P Q : κ → α → Prop}

def Holds (c : Cache κ α) (P : κ → α → Prop) : Prop := ∀ k a, (k, some a) ∈ c.slots → P k a

omit [DecidableEq κ] in
theorem Holds.mono (h : c.Holds P) (himp : ∀ k a, P k a → Q k a) : c.Holds Q :=
  fun k a hmem => himp k a (h k a hmem)

theorem Holds.peek? (h : c.Holds P) {a : α} (ha : c.peek? key = some a) : P key a := by
  apply h
  apply mem_of_lookup
  simpa [Cache.peek?, Option.join_eq_some_iff] using ha

theorem Holds.touch (h : c.Holds P) (key : κ) : (c.touch key).Holds P := by
  intro k a hmem
  unfold Cache.touch at hmem
  split at hmem
  · next value hfound =>
    rcases List.mem_cons.1 hmem with heq | hmem
    · obtain ⟨rfl, rfl⟩ := Prod.mk.inj heq
      exact h k a (mem_of_lookup hfound)
    · exact h k a (List.mem_of_mem_filter hmem)
  · rcases List.mem_cons.1 hmem with heq | hmem
    · cases heq
    · split at hmem
      · exact h k a hmem
      · exact h k a (List.dropLast_subset _ hmem)

theorem Holds.store (h : c.Holds P) {value : α} (hvalue : P key value) :
    (c.store key value).Holds P := by
  intro k a hmem
  obtain ⟨s, hs, heq⟩ := List.mem_map.1 hmem
  split at heq
  · obtain ⟨rfl, hsome⟩ := Prod.mk.inj heq
    rwa [← Option.some.inj hsome]
  · exact h k a (heq ▸ hs)

theorem Holds.getOrCompute (h : c.Holds P) (key : κ) (compute : Unit → Except ε α)
    (hcompute : ∀ a, compute () = .ok a → P key a) :
    (∀ a, (c.getOrCompute key compute).1 = .ok a → P key a) ∧
      (c.getOrCompute key compute).2.Holds P := by
  unfold Cache.getOrCompute
  cases hfound : c.peek? key with
  | some value =>
    refine ⟨fun a ha => ?_, h.touch key⟩
    obtain rfl : value = a := Except.ok.inj ha
    exact h.peek? hfound
  | none =>
    cases hresult : compute () with
    | ok value =>
      refine ⟨fun a ha => ?_, (h.touch key).store (hcompute value hresult)⟩
      obtain rfl : value = a := Except.ok.inj ha
      exact hcompute value hresult
    | error e =>
      refine ⟨fun a ha => ?_, h.touch key⟩
      cases ha

end Cache

namespace Ledger

variable {l l' : Ledger} {n m : Nat}

theorem inputHash_eq_ok_iff {input : Digest} :
    l.inputHash n = .ok input ↔ ∃ r, l.row? n = some r ∧ r.input = input := by
  unfold inputHash
  cases l.row? n <;> simp

theorem le_size_of_rowHash {hash : Digest} (h : l.rowHash n = .ok hash) : n ≤ l.size := by
  by_cases hn : n = 0
  · omega
  · obtain ⟨r, hr, -⟩ := exists_row?_of_rowHash hn h
    exact (exists_row?_iff.1 ⟨r, hr⟩).2

structure Continues (l : Ledger) (m : Nat) (l' : Ledger) : Prop where
  algorithm_eq : l'.algorithm = l.algorithm
  row?_eq : ∀ k ≤ m, l'.row? k = l.row? k

theorem continues_append (l : Ledger) (input : Digest) : l.Continues l.size (l.append input) where
  algorithm_eq := rfl
  row?_eq k hk := by rw [row?_append, if_neg (by omega)]

theorem continues_trim (h : l.trim m = .ok l') : l.Continues m l' where
  algorithm_eq := by rw [(trim_eq_ok_iff.1 h).2]
  row?_eq k hk := by rw [row?_trim h, if_pos hk]

theorem Continues.inputHash (h : l.Continues m l') (hn : n ≤ m) {input : Digest}
    (hinput : l.inputHash n = .ok input) : l'.inputHash n = .ok input := by
  rw [inputHash_eq_ok_iff, h.row?_eq n hn]
  exact inputHash_eq_ok_iff.1 hinput

theorem Continues.rowHash (h : l.Continues m l') (hn : n ≤ m) {hash : Digest}
    (hhash : l.rowHash n = .ok hash) : l'.rowHash n = .ok hash := by
  by_cases h0 : n = 0
  · rw [Ledger.rowHash, if_pos h0] at hhash ⊢
    exact hhash
  · obtain ⟨r, hr, rfl⟩ := exists_row?_of_rowHash h0 hhash
    rw [← h.row?_eq n hn] at hr
    exact rowHash_of_row? hr

end Ledger

namespace Journal

variable {j j' : Journal} {l : Ledger} {n : Nat}

/-- What a journal retains, records and remembers is of its ledger. -/
structure Sound (j : Journal) : Prop where
  reachable : j.ledger.Reachable
  rows : ∀ n row, j.rows.get? n = some row →
    j.ledger.inputHash n = .ok (row.hash j.algorithm.digest)
  attestations : ∀ a ∈ j.attestations, a.row ≠ 0 ∧
    j.ledger.rowHash a.row = .ok a.attestation.state
  paths : j.paths.Holds fun r p =>
    j.ledger.Built (Ledger.targetSet r.targets.toList) r.low r.high p

theorem Sound.row_le (sound : j.Sound) {row : Row} (h : j.rows.get? n = some row) :
    1 ≤ n ∧ n ≤ j.size := by
  obtain ⟨r, hr, -⟩ := Ledger.inputHash_eq_ok_iff.1 (sound.rows n row h)
  exact Ledger.exists_row?_iff.1 ⟨r, hr⟩

theorem Sound.new {info : LedgerInfo} {settings : Settings} (h : Journal.new info settings = .ok j) :
    j.Sound := by
  obtain ⟨⟨⟩, -, h⟩ := bind_eq_ok.1 h
  obtain ⟨⟨⟩, -, h⟩ := bind_eq_ok.1 h
  obtain ⟨paths, hpaths, h⟩ := bind_eq_ok.1 h
  obtain rfl := pure_eq_ok.1 h
  have hpaths := mapError_eq_ok.1 hpaths
  refine ⟨.new _, fun n row h => ?_, fun a ha => ?_, fun r p hmem => ?_⟩
  · cases h
  · cases ha
  · unfold Cache.new at hpaths
    split at hpaths
    · cases hpaths
      cases hmem
    · cases hpaths

theorem Sound.withTableSalt (sound : j.Sound) {salt : TableSalt}
    (h : j.withTableSalt salt = .ok j') : j'.Sound := by
  unfold Journal.withTableSalt at h
  split at h
  · cases h
  · cases h
    exact ⟨sound.reachable, sound.rows, sound.attestations, sound.paths⟩

theorem size_appendInput (j : Journal) (input : Digest) : (j.appendInput input).size = j.size + 1 :=
  Ledger.size_append _ _

theorem Sound.appendInput (sound : j.Sound) (input : Digest) : (j.appendInput input).Sound := by
  have continues := j.ledger.continues_append input
  refine ⟨.append input sound.reachable, fun n row h => ?_, fun a ha => ?_, ?_⟩
  · exact continues.inputHash (sound.row_le h).2 (sound.rows n row h)
  · obtain ⟨hpos, hstate⟩ := sound.attestations a ha
    exact ⟨hpos, continues.rowHash (Ledger.le_size_of_rowHash hstate) hstate⟩
  · refine sound.paths.mono fun r p built => ?_
    have hhigh := built.high_le
    have hsize : (j.appendInput input).ledger.size = j.ledger.size + 1 := size_appendInput j input
    apply built.congr (by omega)
    intro k hk
    exact continues.row?_eq k (Nat.le_trans hk hhigh)

theorem Sound.appendRow (sound : j.Sound) (row : Row) : (j.appendRow row).Sound := by
  have appended := sound.appendInput (row.hash j.algorithm.digest)
  refine ⟨appended.reachable, fun n found h => ?_, appended.attestations, appended.paths⟩
  have hsize := size_appendInput j (row.hash j.algorithm.digest)
  simp only [Journal.appendRow, NatMap.get?_insert, hsize] at h
  split at h
  · next hn =>
    obtain rfl := Option.some.inj h
    apply Ledger.inputHash_eq_ok_iff.2
    exact ⟨_, by rw [hn]; exact (Ledger.row?_append ..).trans (if_pos rfl), rfl⟩
  · exact appended.rows n found h

theorem Sound.appendValues (sound : j.Sound) {values : List Value}
    (h : j.appendValues values = .ok j') : j'.Sound := by
  obtain ⟨row, -, h⟩ := bind_eq_ok.1 h
  obtain rfl := pure_eq_ok.1 h
  exact sound.appendRow row

theorem trim_eq_ok (h : j.trim n = .ok j') : ∃ l, j.ledger.trim n = .ok l ∧ j' = { j with
    ledger := l
    rows := j.rows.filterKeys (· ≤ n)
    attestations := j.attestations.filter (·.row ≤ n)
    paths := j.paths.clear } := by
  obtain ⟨l, htrim, h⟩ := bind_eq_ok.1 h
  exact ⟨l, mapError_eq_ok.1 htrim, (pure_eq_ok.1 h).symm⟩

theorem Sound.trim (sound : j.Sound) (h : j.trim n = .ok j') : j'.Sound := by
  obtain ⟨l, htrim, rfl⟩ := trim_eq_ok h
  have continues := Ledger.continues_trim htrim
  refine ⟨sound.reachable.trim htrim, fun k row hk => ?_, fun a ha => ?_, fun r p hmem => ?_⟩
  · obtain ⟨hmem, hkept⟩ := List.mem_filter.1 (NatMap.mem_toList_iff.2 hk)
    have hle : k ≤ n := by simpa using hkept
    rw [algorithm, continues.algorithm_eq]
    exact continues.inputHash hle (sound.rows k row (NatMap.mem_toList_iff.1 hmem))
  · obtain ⟨hmem, hkept⟩ := List.mem_filter.1 ha
    obtain ⟨hpos, hstate⟩ := sound.attestations a hmem
    exact ⟨hpos, continues.rowHash (by simpa using hkept) hstate⟩
  · cases hmem

theorem witness_eq_ok {w : Witness} {a : RowAttestation} (h : j.witness w = .ok (a, j')) :
    j' = j.record a ∧ a.row = j.size ∧ j.size ≠ 0 ∧ a.attestation.state = j.state := by
  unfold Journal.witness at h
  split at h
  · cases h
  · next hsize =>
    obtain ⟨b, hb, h⟩ := bind_eq_ok.1 h
    obtain ⟨rfl, rfl⟩ := Prod.mk.inj (pure_eq_ok.1 h)
    unfold answered at hb
    split at hb
    · cases hb
    · split at hb
      · cases hb
      · next hstate =>
        cases hb
        exact ⟨rfl, rfl, hsize, not_not.1 hstate⟩

theorem Sound.witness (sound : j.Sound) {w : Witness} {a : RowAttestation}
    (h : j.witness w = .ok (a, j')) : j'.Sound := by
  obtain ⟨rfl, hrow, hsize, hstate⟩ := witness_eq_ok h
  refine ⟨sound.reachable, sound.rows, fun b hb => ?_, sound.paths⟩
  rcases List.mem_append.1 hb with hb | hb
  · exact sound.attestations b hb
  · rw [List.mem_singleton.1 hb, hrow, hstate]
    exact ⟨hsize, Ledger.rowHash_eq_hashBelow (Nat.le_refl _)⟩

theorem path_cases (r : PathRequest) (j : Journal) :
    ∃ paths, (∃ p, Journal.path r j = .ok p { j with paths }) ∨
      ∃ e, Journal.path r j = .error e { j with paths } := by
  unfold Journal.path
  generalize j.paths.getOrCompute r (fun _ => r.build j.ledger) = answer
  obtain ⟨e | p, paths⟩ := answer
  · exact ⟨paths, .inr ⟨_, rfl⟩⟩
  · exact ⟨paths, .inl ⟨p, rfl⟩⟩

theorem Sound.path (sound : j.Sound) (r : PathRequest) :
    ∃ paths, ({ j with paths } : Journal).Sound ∧
      ((∃ e, Journal.path r j = .error e { j with paths }) ∨
        ∃ p, Journal.path r j = .ok p { j with paths } ∧
          j.ledger.Built (Ledger.targetSet r.targets.toList) r.low r.high p) := by
  obtain ⟨hgiven, hleft⟩ := sound.paths.getOrCompute r (fun _ => r.build j.ledger)
    fun p hp => Ledger.path_eq_ok_iff.1 hp
  unfold Journal.path
  generalize j.paths.getOrCompute r (fun _ => r.build j.ledger) = answer at hgiven hleft
  obtain ⟨e | p, paths⟩ := answer
  · exact ⟨paths, ⟨sound.reachable, sound.rows, sound.attestations, hleft⟩, .inl ⟨_, rfl⟩⟩
  · exact ⟨paths, ⟨sound.reachable, sound.rows, sound.attestations, hleft⟩,
      .inr ⟨p, rfl, hgiven p rfl⟩⟩

/-- The journals that a new one comes to be by appending, cutting back, witnesses that answer, and
paths asked for. -/
inductive Reachable : Journal → Prop where
  | new {info : LedgerInfo} {settings : Settings} {j : Journal}
    (h : Journal.new info settings = .ok j) : Reachable j
  | withTableSalt {j j' : Journal} {salt : TableSalt} (hj : Reachable j)
    (h : j.withTableSalt salt = .ok j') : Reachable j'
  | appendInput {j : Journal} (input : Digest) (hj : Reachable j) : Reachable (j.appendInput input)
  | appendRow {j : Journal} (row : Row) (hj : Reachable j) : Reachable (j.appendRow row)
  | appendValues {j j' : Journal} {values : List Value} (hj : Reachable j)
    (h : j.appendValues values = .ok j') : Reachable j'
  | trim {j j' : Journal} {n : Nat} (hj : Reachable j) (h : j.trim n = .ok j') : Reachable j'
  | witness {j j' : Journal} {w : Witness} {a : RowAttestation} (hj : Reachable j)
    (h : j.witness w = .ok (a, j')) : Reachable j'
  | path {j j' : Journal} {r : PathRequest} (hj : Reachable j)
    (h : (∃ p, Journal.path r j = .ok p j') ∨ ∃ e, Journal.path r j = .error e j') : Reachable j'

theorem Reachable.sound (reachable : j.Reachable) : j.Sound := by
  induction reachable with
  | new h => exact .new h
  | withTableSalt _ h ih => exact ih.withTableSalt h
  | appendInput input _ ih => exact ih.appendInput input
  | appendRow row _ ih => exact ih.appendRow row
  | appendValues _ h ih => exact ih.appendValues h
  | trim _ h ih => exact ih.trim h
  | witness _ h ih => exact ih.witness h
  | @path j j' r _ h ih =>
    obtain ⟨paths, sound, ⟨e, hanswer⟩ | ⟨p, hanswer, _⟩⟩ := ih.path r <;>
      rw [hanswer] at h <;> rcases h with ⟨_, h⟩ | ⟨_, h⟩ <;> cases h <;> exact sound

end Journal

end SkipChain
