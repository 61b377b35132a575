import SkipChain.Proofs.Morsel.Section
import SkipChain.Proofs.Table.Accepted
/-!
What is accepted as the contents of a section is within the limits, and its own encoding is no
longer than the section's body.
-/
namespace SkipChain

open Decoder (Yields)

variable {α : Type} {limits : Limits} {limit : Nat}

theorem Decoder.Yields.lift {read : Decoder ValueError α} {P : Nat → α → Prop}
    (h : Yields read P) : Yields (liftM read : Decoder MorselError α) P := h.mapError

namespace Section

theorem yields_decode (limit : Nat) : Yields (decode limit) fun n s =>
    s.body.length ≤ limit ∧ s.encode.length ≤ n := by
  apply Decoder.yields_byte.bind
  rintro _ tag rfl
  apply (Decoder.yields_count limit).bind
  rintro n k ⟨hk, -, hn⟩
  apply (Decoder.yields_take k).bind
  rintro _ body ⟨hbody, rfl⟩
  apply Yields.pure
  simp only [encode, Wire.tagged, Wire.block, List.length_cons, List.length_append, hbody]
  omega

theorem readAll_eq {fuel : Nat} {c : Cursor} {ss : List Section} {fault : Option ValueError}
    (h : readAll limit fuel c = (ss, fault)) :
    (∀ s ∈ ss, s.body.length ≤ limit) ∧ (ss.flatMap encode).length ≤ c.rest.length := by
  induction fuel generalizing c ss with
  | zero =>
    cases h
    simp
  | succ fuel ih =>
    rw [readAll] at h
    split at h
    · cases h
      simp
    · split at h
      · cases h
        simp
      · next s c' hread =>
        cases h
        obtain ⟨n, hn, hbody, hs⟩ := yields_decode limit c s c' hread
        obtain ⟨hbodies, hss⟩ := ih (c := c') rfl
        refine ⟨by simpa using ⟨hbody, hbodies⟩, ?_⟩
        rw [List.flatMap_cons, List.length_append]
        omega

theorem split_eq {bytes : Bytes} {ss : List Section} {fault : Option ValueError}
    (h : split limit bytes = (ss, fault)) :
    (∀ s ∈ ss, s.body.length ≤ limit) ∧ (ss.flatMap encode).length ≤ bytes.length :=
  readAll_eq h

end Section

namespace RowParsing

theorem yields_decodeOptional : Yields decodeOptional fun n o =>
    (Wire.optionalText o).length ≤ n := by
  apply Decoder.yields_byte.lift.bind
  rintro _ flag rfl
  apply Yields.ite
  · intro
    exact .pure (Nat.le_refl 1)
  intro
  apply Yields.ite
  · intro
    apply Decoder.yields_text.lift.bind
    rintro n s ⟨-, hn⟩
    apply Yields.pure
    rw [Wire.optionalText, List.length_cons]
    omega
  · intro
    exact .throw _

theorem yields_decode : Yields decode fun n p => p.encode.length ≤ n := by
  apply Decoder.yields_text.lift.bind
  rintro n₁ rowDelimiter ⟨-, h₁⟩
  apply yields_decodeOptional.bind
  intro n₂ commentMark h₂
  apply yields_decodeOptional.bind
  intro n₃ tokenDelimiters h₃
  apply Decoder.yields_byte.lift.bind
  rintro _ flags rfl
  apply Yields.guard
  intro
  apply Yields.pure
  simp only [encode, List.length_append, List.length_singleton]
  omega

end RowParsing

namespace Path

theorem toPathParts_of_ofParts {parts : PathParts} {p : Path} (h : ofParts parts = .ok p) :
    p.toPathParts = parts := by
  unfold ofParts at h
  split at h
  · cases h
  · cases h
    rfl

/-- The targets may come in any order: in ascending order they take as many bytes. -/
theorem yields_decodeTargets (k : Nat) (before : NatSet) :
    Yields (decodeTargets k before) fun n s => s.size = before.size + k ∧
      (s.toList.flatMap Wire.varint).length ≤ (before.toList.flatMap Wire.varint).length + n := by
  induction k generalizing before with
  | zero => exact .pure ⟨rfl, Nat.le_refl _⟩
  | succ k ih =>
    apply Decoder.yields_varint.lift.bind
    rintro n row ⟨-, hn⟩
    apply Yields.guard
    intro hnew
    have hsize := NatSet.size_insert hnew
    have hbytes := NatSet.length_flatMap_insert Wire.varint hnew
    apply (ih _).mono
    rintro m s ⟨hrest, hm⟩
    exact ⟨by omega, by omega⟩

theorem yields_decodeEntry (row : Nat) : Yields decodeEntry fun n e =>
    (encodeEntry row e).length ≤ (Wire.varint row).length + n := by
  apply Decoder.yields_byte.lift.bind
  rintro _ flag rfl
  apply Yields.ite
  · intro
    rw [pure_bind]
    apply Decoder.yields_digest.lift.bind
    rintro _ hash rfl
    apply Yields.pure
    simp only [encodeEntry, List.length_append, Option.elim_none, List.length_singleton,
      hash.length_bytes]
    omega
  intro
  apply Yields.ite
  · intro
    apply Yields.bind (P := fun n input => ∃ i : Digest, input = some i ∧ n = 32)
    · apply Yields.map
      exact Decoder.yields_digest.lift.mono fun n i hn => ⟨i, rfl, hn⟩
    · rintro _ _ ⟨i, rfl, rfl⟩
      apply Decoder.yields_digest.lift.bind
      rintro _ hash rfl
      apply Yields.pure
      simp only [encodeEntry, List.length_append, Option.elim_some, List.length_cons,
        hash.length_bytes, i.length_bytes]
      omega
  · intro
    exact .throw_bind _

theorem yields_decodeEntries (k : Nat) (last : Option Nat) (before : NatMap PathEntry)
    (hlast : ∀ key ∈ before.keys, ∃ row ∈ last, key ≤ row) :
    Yields (decodeEntries k last before) fun n m => m.size = before.size + k ∧
      (m.toList.flatMap fun e => encodeEntry e.1 e.2).length ≤
        (before.toList.flatMap fun e => encodeEntry e.1 e.2).length + n := by
  induction k generalizing last before with
  | zero => exact .pure ⟨rfl, Nat.le_refl _⟩
  | succ k ih =>
    apply Decoder.yields_varint.lift.bind
    rintro n row ⟨-, hn⟩
    apply Yields.guard
    intro hnext
    have habove : ∀ key ∈ before.keys, key < row := by
      intro key hkey
      obtain ⟨r, hr, hle⟩ := hlast key hkey
      rw [Option.mem_def] at hr
      rw [hr, Option.any_some, decide_eq_true_eq] at hnext
      omega
    have hnew : row ∉ before.keys := fun hmem => Nat.lt_irrefl row (habove row hmem)
    apply (yields_decodeEntry row).bind
    intro m entry hm
    have hsize := NatMap.size_insert entry hnew
    have hbytes := NatMap.length_flatMap_insert entry (fun e => encodeEntry e.1 e.2) hnew
    dsimp only at hbytes
    apply (ih (some row) (before.insert row entry) _).mono
    · rintro l es ⟨hrest, hl⟩
      exact ⟨by omega, by omega⟩
    · intro key hkey
      refine ⟨row, rfl, ?_⟩
      obtain ⟨a, ha⟩ := NatMap.mem_keys.1 hkey
      rw [NatMap.get?_insert] at ha
      split at ha
      · omega
      · exact Nat.le_of_lt (habove key (NatMap.mem_keys.2 ⟨a, ha⟩))

theorem yields_decode (limit : Nat) : Yields (decode limit) fun n p =>
    p.high < Word.count64 ∧ p.targets.size ≤ limit ∧ p.entries.size ≤ limit ∧
      p.encode.length ≤ n := by
  apply Decoder.yields_varint.lift.bind
  rintro n₁ low ⟨-, h₁⟩
  apply Decoder.yields_varint.lift.bind
  rintro n₂ high ⟨hhigh, h₂⟩
  apply (Decoder.yields_count limit).lift.bind
  rintro n₃ targetCount ⟨htargetCount, -, h₃⟩
  apply (yields_decodeTargets targetCount .empty).bind
  rintro n₄ targets ⟨htargets, h₄⟩
  apply (Decoder.yields_count limit).lift.bind
  rintro n₅ entryCount ⟨hentryCount, -, h₅⟩
  apply (yields_decodeEntries entryCount none .empty fun key hkey => nomatch hkey).bind
  rintro n₆ entries ⟨hentries, h₆⟩
  split
  · exact .throw _
  · next p hp =>
    apply Yields.pure
    have hparts := toPathParts_of_ofParts hp
    have hnone : NatSet.empty.size = 0 := rfl
    have hnone' : (NatMap.empty : NatMap PathEntry).size = 0 := rfl
    have hempty : (NatSet.empty.toList.flatMap Wire.varint).length = 0 := rfl
    have hempty' : ((NatMap.empty : NatMap PathEntry).toList.flatMap fun e =>
      encodeEntry e.1 e.2).length = 0 := rfl
    rw [hnone, Nat.zero_add] at htargets
    rw [hnone', Nat.zero_add] at hentries
    simp only [encode, List.length_append, hparts, htargets, hentries]
    omega

end Path

namespace LedgerSection

theorem yields_decodeRestText : Yields decodeRestText fun n s => (Utf8.encode s).length = n := by
  intro c s c' hread
  unfold decodeRestText at hread
  split at hread
  · cases hread
  · next hs =>
    cases hread
    exact ⟨c.rest.length, rfl, congrArg List.length (Utf8.encode_of_decode hs)⟩

theorem yields_decodeIdentity : Yields decodeIdentity fun n i =>
    1 + (Wire.text i.2).length ≤ n := by
  apply Decoder.yields_byte.lift.bind
  rintro _ code rfl
  split
  · exact .throw _
  · apply Decoder.yields_text.lift.bind
    rintro n name ⟨-, hn⟩
    apply Yields.pure
    dsimp only
    omega

theorem yields_decode (limits : Limits) (t : LedgerTag) : Yields (decode limits t) fun n s =>
    s.tag = t ∧ s.Sized ∧ s.Fits limits ∧ s.body.length ≤ n := by
  cases t with
  | identity =>
    apply yields_decodeIdentity.bind
    intro n i hn
    apply Yields.pure
    refine ⟨rfl, trivial, trivial, ?_⟩
    simp only [body, List.length_cons]
    omega
  | origin | notes =>
    apply yields_decodeRestText.bind
    rintro n text rfl
    exact .pure ⟨rfl, trivial, trivial, Nat.le_refl _⟩
  | assets =>
    apply Decoder.yields_takeRest.bind
    rintro n bytes rfl
    exact .pure ⟨rfl, trivial, trivial, Nat.le_refl _⟩
  | salt =>
    apply SaltScheme.yields_decode.lift.bind
    intro n scheme hn
    exact .pure ⟨rfl, trivial, trivial, hn⟩
  | timechain =>
    apply Decoder.yields_byte.lift.bind
    rintro _ binExponent rfl
    apply Decoder.yields_int64.lift.bind
    rintro _ inception rfl
    apply Yields.pure
    refine ⟨rfl, trivial, trivial, ?_⟩
    rw [body, List.length_cons, Value.int64Bytes, Bytes.length_bigEndian]
  | parsing =>
    apply RowParsing.yields_decode.bind
    intro n settings hn
    exact .pure ⟨rfl, trivial, trivial, hn⟩
  | path =>
    apply (Path.yields_decode limits.maxPathEntries).bind
    rintro n p ⟨hhigh, htargets, hentries, hn⟩
    exact .pure ⟨rfl, hhigh, ⟨htargets, hentries⟩, hn⟩
  | sourceRow =>
    apply Decoder.yields_varint.lift.bind
    rintro n row ⟨hrow, hn⟩
    apply (Row.yields_decode limits.maxCellsPerRow).lift.bind
    rintro m cells ⟨hcells, -, hm⟩
    apply Yields.pure
    refine ⟨rfl, hrow, hcells, ?_⟩
    simp only [body, List.length_append]
    omega
  | rawText =>
    apply Decoder.yields_varint.lift.bind
    rintro n first ⟨hfirst, hn⟩
    apply Decoder.yields_takeRest.bind
    rintro m bytes rfl
    apply Yields.pure
    refine ⟨rfl, hfirst, trivial, ?_⟩
    simp only [body, List.length_append]
    omega
  | attestation =>
    apply Decoder.yields_varint.lift.bind
    rintro n row ⟨hrow, hn⟩
    apply Decoder.yields_digest.lift.bind
    rintro _ state rfl
    apply Decoder.yields_int64.lift.bind
    rintro _ millis rfl
    apply Decoder.yields_takeRest.bind
    rintro m proof rfl
    apply Yields.pure
    refine ⟨rfl, hrow, trivial, ?_⟩
    simp only [body, List.length_append, state.length_bytes, Value.int64Bytes,
      Bytes.length_bigEndian]
    omega

theorem ofBody_spec {t : LedgerTag} {bytes : Bytes} {s : LedgerSection}
    (h : ofBody limits t bytes = .ok s) :
    s.tag = t ∧ s.Sized ∧ s.Fits limits ∧ s.body.length ≤ bytes.length := by
  unfold ofBody at h
  split at h
  · cases h
  · next c hread =>
    split at h
    · next hend =>
      cases h
      obtain ⟨n, hn, htag, hsized, hfits, hbody⟩ := yields_decode limits t _ _ _ hread
      rw [List.isEmpty_iff.1 hend, List.length_nil, Nat.add_zero] at hn
      rw [← hn] at hbody
      exact ⟨htag, hsized, hfits, hbody⟩
    · cases h

end LedgerSection

end SkipChain
