import Mathlib.Data.List.Dedup
import SkipChain.Proofs.Morsel.RoundTrip
import SkipChain.Proofs.Report.Honest
/-!
From journals to a verified morsel: what honest journals disclose is written, read back and verified
without a failure, and everything in it is counted.
-/
namespace SkipChain

structure Handover where
  journal : Journal
  request : Disclosure

def Handover.package (s : Handover) : Package :=
  match s.request.package s.journal with
  | .ok k _ => k
  | .error _ _ => ⟨s.journal.info, [], [], none, []⟩

theorem Handover.package_eq {s : Handover} {k : Package} {j : Journal}
    (h : s.request.package s.journal = .ok k j) : s.package = k := by
  rw [package, h]

namespace Disclosure

variable {d : Disclosure} {j : Journal} {k : Package}

theorem textRows_eq_ok {rows : List Nat} (h : d.textRows j = .ok rows) {text : RawText}
    {parsing : RowParsing} (htext : d.rawText = some text) (hparsing : j.info.parsing = some parsing) :
    ∃ spelled, parsing.rows text.bytes text.first = some (.ok spelled) ∧
      rows = spelled.map (·.1) := by
  unfold textRows at h
  rw [htext, hparsing] at h
  dsimp only at h
  split at h
  · next spelled hspelled =>
    cases h
    exact ⟨spelled, hspelled, rfl⟩
  · cases h
  · cases h

def SpellsRows (d : Disclosure) (j : Journal) : Prop :=
  j.info.salt = .noneSalted → ∀ text parsing rows, d.rawText = some text →
    j.info.parsing = some parsing → parsing.rows text.bytes text.first = some (.ok rows) →
      ∀ r ∈ rows, 1 ≤ r.1 ∧ j.ledger.inputHash r.1 = .ok (r.2.hash j.algorithm.digest)

theorem mem_textRows {r : Nat × Row} (h : r ∈ k.textRows) :
    ∃ text parsing rows, k.Readable text parsing ∧
      parsing.rows text.bytes text.first = some (.ok rows) ∧ r ∈ rows := by
  rcases k.readable_or_unread with ⟨text, parsing, hread⟩ | hunread
  · rw [hread.textRows_eq] at h
    split at h
    · next rows hrows => exact ⟨text, parsing, rows, hread, hrows, h⟩
    · cases h
  · rw [Package.textRows_of_unread hunread] at h
    cases h

theorem Packages.recorded (packages : d.Packages j k) {t : RowAttestation}
    (ht : t ∈ k.attestations) : t ∈ j.attestations := by
  rw [packages.attestations] at ht
  split at ht
  · exact ht
  · cases ht

theorem Packages.honest (packages : d.Packages j k) (sound : j.Sound)
    (ends : ∀ p ∈ k.paths, p.low = 0 ∨ p.high = j.size)
    (whole : ∃ p ∈ k.paths, p.low = 0 ∧ p.high = j.size) (spells : d.SpellsRows j) :
    k.Honest j.ledger := by
  obtain ⟨rows, hrows, hcovered⟩ := packages.covered
  obtain ⟨_, hretained⟩ := sourceRows_eq_ok packages.sourceRows
  simp only [List.mem_append, List.mem_map] at hcovered
  refine ⟨packages.paths, ends, whole, fun r hr => ?_, fun r hr => ?_, ?_, fun t ht => ?_⟩
  · obtain ⟨row, hrow, hcells⟩ := hretained r hr
    have hpos := (sound.row_le hrow).1
    refine ⟨?_, hcovered r.row (.inl (.inl ⟨r, hr, rfl⟩)) (by omega)⟩
    rw [hcells]
    exact (sound.rows r.row row hrow).trans (congrArg _ (Row.hash_redact _ _ _).symm)
  · obtain ⟨text, parsing, spelled, ⟨htext, hparsing, hsalt⟩, hspelled, hr⟩ := mem_textRows hr
    rw [packages.rawText] at htext
    rw [packages.info] at hparsing hsalt
    obtain ⟨spelled', hspelled', rfl⟩ := textRows_eq_ok hrows htext hparsing
    obtain rfl := Except.ok.inj (Option.some.inj (hspelled.symm.trans hspelled'))
    obtain ⟨hpos, hinput⟩ := spells hsalt text parsing spelled htext hparsing hspelled r hr
    exact ⟨hinput, hcovered r.1 (.inr (List.mem_map_of_mem hr)) (by omega)⟩
  · intro text parsing htext hparsing
    rw [packages.rawText] at htext
    rw [packages.info] at hparsing
    obtain ⟨spelled, hspelled, _⟩ := textRows_eq_ok hrows htext hparsing
    exact ⟨spelled, hspelled⟩
  · obtain ⟨hpos, hstate⟩ := sound.attestations t (packages.recorded ht)
    exact ⟨hstate, hcovered t.row (.inl (.inr ⟨t, ht, rfl⟩)) hpos⟩

theorem Packages.length_textRows (packages : d.Packages j k) {rows : List Nat}
    (hrows : d.textRows j = .ok rows) :
    k.textRows.length = if j.info.salt = .noneSalted then rows.length else 0 := by
  unfold Package.textRows
  rw [packages.rawText, packages.info]
  cases htext : d.rawText with
  | none =>
    unfold textRows at hrows
    rw [htext] at hrows
    cases hrows
    simp
  | some text =>
    cases hparsing : j.info.parsing with
    | none =>
      unfold textRows at hrows
      rw [htext, hparsing] at hrows
      cases hrows
    | some parsing =>
      obtain ⟨spelled, hspelled, rfl⟩ := textRows_eq_ok hrows htext hparsing
      simp only [hspelled]
      split <;> simp

theorem Packages.length_sourceRows (packages : d.Packages j k) :
    k.sourceRows.length = d.rows.dedup.length := by
  have hnumbers := (sourceRows_eq_ok packages.sourceRows).1
  have hlength : k.sourceRows.length = (NatSet.ofList d.rows).toList.length := by
    rw [← hnumbers, List.length_map]
  rw [hlength]
  apply List.Perm.length_eq
  -- neither list has a row twice, and both have the rows asked for
  apply (List.perm_ext_iff_of_nodup _ (List.nodup_dedup _)).2
  · intro n
    rw [List.mem_dedup]
    exact NatSet.mem_ofList
  · exact (NatSet.ofList d.rows).ascending.imp Nat.ne_of_lt

theorem Packages.sized (packages : d.Packages j k) (sound : j.Sound)
    (hsize : j.size < Word.count64) (htext : ∀ t ∈ d.rawText, t.first < Word.count64) :
    k.Sized := by
  refine ⟨fun p hp => ?_, fun r hr => ?_, ?_, fun t ht => ?_⟩
  · obtain ⟨targets, low, high, built⟩ := packages.paths p hp
    have hle := built.high_le
    rw [← built.high_eq] at hle
    exact Nat.lt_of_le_of_lt hle hsize
  · obtain ⟨row, hrow, _⟩ := (sourceRows_eq_ok packages.sourceRows).2 r hr
    exact Nat.lt_of_le_of_lt (sound.row_le hrow).2 hsize
  · rwa [packages.rawText]
  · have hstate := (sound.attestations t (packages.recorded ht)).2
    exact Nat.lt_of_le_of_lt (Ledger.le_size_of_rowHash hstate) hsize

end Disclosure

namespace Morsel

variable {m m' : Morsel}

/-- The morsels that come to be by disclosing parts of journals one after the other, with notes and
assets set at any time; and what was handed over for them. -/
inductive Packed : Morsel → List Handover → Prop
  | new (algorithm : Algorithm) : Packed (new algorithm) []
  | notes {m : Morsel} {hs : List Handover} (h : Packed m hs) (text : String) :
    Packed { m with notes := some text } hs
  | assets {m : Morsel} {hs : List Handover} (h : Packed m hs) (bytes : Bytes) :
    Packed { m with assets := some bytes } hs
  | disclose {m m' : Morsel} {hs : List Handover} {s : Handover} {j' : Journal} (h : Packed m hs)
    (reachable : s.journal.Reachable) (accepted : m.disclose s.request s.journal = .ok m' j') :
    Packed m' (hs ++ [s])

structure HandedOver (m : Morsel) (s : Handover) : Prop where
  sound : s.journal.Sound
  algorithm : s.journal.algorithm = m.algorithm
  packages : s.request.Packages s.journal s.package

theorem HandedOver.of_algorithm_eq {s : Handover} (h : m.HandedOver s)
    (heq : m'.algorithm = m.algorithm) : m'.HandedOver s :=
  ⟨h.sound, h.algorithm.trans heq.symm, h.packages⟩

theorem Packed.spec {hs : List Handover} (packed : m.Packed hs) :
    m.Assembled ∧ m.ledgers = hs.map Handover.package ∧ ∀ s ∈ hs, m.HandedOver s := by
  induction packed with
  | new algorithm => exact ⟨.new algorithm, rfl, fun _ h => absurd h List.not_mem_nil⟩
  | notes _ text ih =>
    obtain ⟨assembled, hledgers, handed⟩ := ih
    exact ⟨assembled.notes text, hledgers, fun s hs => (handed s hs).of_algorithm_eq rfl⟩
  | assets _ bytes ih =>
    obtain ⟨assembled, hledgers, handed⟩ := ih
    exact ⟨assembled.assets bytes, hledgers, fun s hs => (handed s hs).of_algorithm_eq rfl⟩
  | @disclose m m' hs s j' _ reachable accepted ih =>
    obtain ⟨assembled, hledgers, handed⟩ := ih
    obtain ⟨halgorithm, k, hk, hadd⟩ := disclose_eq_ok accepted
    obtain ⟨-, -, rfl⟩ := add_eq_ok_iff.1 hadd
    obtain rfl := Handover.package_eq hk
    refine ⟨assembled.add hadd, by simp [hledgers], fun t ht => ?_⟩
    rcases List.mem_append.1 ht with ht | ht
    · exact (handed t ht).of_algorithm_eq rfl
    · obtain rfl := List.mem_singleton.1 ht
      exact ⟨reachable.sound, halgorithm, (Disclosure.package_eq_ok reachable hk).1⟩

end Morsel

namespace Handover

variable {s : Handover} {m : Morsel}

/-- Every path starts where the ledger starts or ends where it ends, one does both, and a text that
can be checked spells rows of the ledger. -/
structure Proper (s : Handover) : Prop where
  ends : ∀ p ∈ s.package.paths, p.low = 0 ∨ p.high = s.journal.size
  whole : ∃ p ∈ s.package.paths, p.low = 0 ∧ p.high = s.journal.size
  spells : s.request.SpellsRows s.journal

structure Sized (s : Handover) : Prop where
  size : s.journal.size < Word.count64
  text : ∀ t ∈ s.request.rawText, t.first < Word.count64

structure Clean (s : Handover) (r : LedgerReport) : Prop where
  name : r.name = s.journal.name
  failures : r.failures = []
  paths : r.pathsVerified = s.package.paths.length
  sourceRows : r.sourceRowsVerified = s.request.rows.dedup.length
  textRows : ∃ rows, s.request.textRows s.journal = .ok rows ∧
    r.textRowsVerified = if s.journal.info.salt = .noneSalted then rows.length else 0
  attestations : r.attestationsVerified = s.package.attestations.length

theorem name_package (h : m.HandedOver s) : s.package.name = s.journal.name :=
  congrArg LedgerInfo.name h.packages.info

theorem clean_verify (h : m.HandedOver s) (proper : s.Proper) {trusted : Option TrustedRow}
    (trusts : Package.TrustsState trusted s.journal.ledger) :
    ∃ r, s.package.verify m.algorithm.digest trusted = some r ∧ s.Clean r := by
  have honest := h.packages.honest h.sound proper.ends proper.whole proper.spells
  obtain ⟨r, hr, hname, hfailures, hpaths, hsourceRows, htextRows, hattestations⟩ :=
    honest.report h.sound.reachable.linked trusts
  obtain ⟨rows, hrows, _⟩ := h.packages.covered
  rw [← h.algorithm]
  exact ⟨r, hr, {
    name := hname.trans (name_package h)
    failures := hfailures
    paths := hpaths
    sourceRows := hsourceRows.trans h.packages.length_sourceRows
    textRows := ⟨rows, hrows, htextRows.trans (h.packages.length_textRows hrows)⟩
    attestations := hattestations }⟩

end Handover

namespace Morsel

variable {m : Morsel}

/-- A morsel of parts of journals is written, and what is written is verified with every path, row
and attestation counted and no failure, whether nothing is trusted of a ledger or its state. -/
theorem Packed.verifies {hs : List Handover} (packed : m.Packed hs) (hne : hs ≠ [])
    (hassets : m.assets.isSome → m.notes.isSome) (proper : ∀ s ∈ hs, s.Proper)
    (sized : ∀ s ∈ hs, s.Sized) :
    m.validate = .ok () ∧ ∃ bytes, m.encode = .ok bytes ∧
      ∀ limits : Limits, limits.Sized → m.Within limits → ∀ v : Verifier,
        (∀ s ∈ hs, v.trusted? s.journal.name = none ∨
          v.trusted? s.journal.name = some ⟨s.journal.size, s.journal.state⟩) →
        ∃ report, v.verifyBytes limits bytes = .ok report ∧
          List.Forall₂ Handover.Clean hs report.ledgers := by
  obtain ⟨assembled, hledgers, handed⟩ := packed.spec
  have sound := assembled.sound
  have hvalid : m.validate = .ok () := by
    refine sound.validate_eq_ok_iff.2 ⟨?_, hassets⟩
    rwa [hledgers, ne_eq, List.map_eq_nil_iff]
  have hsized : m.Sized := by
    rw [Morsel.Sized, hledgers, List.forall_mem_map]
    intro s hs
    exact (handed s hs).packages.sized (handed s hs).sound (sized s hs).size (sized s hs).text
  refine ⟨hvalid, _, encode_eq_ok_iff.2 ⟨hvalid, rfl⟩, fun limits hlimits hwithin v trusts => ?_⟩
  -- reading gives the morsel itself, so the report is on the packages as they were handed over
  have hdecode := decode_withChecksum limits m (m.sections.flatMap Section.encode)
  rw [decodeSections_eq_ok sound hvalid hsized hwithin hlimits] at hdecode
  have clean : ∀ s ∈ hs, ∃ r, s.package.verify m.algorithm.digest (v.trusted? s.package.name) =
      some r ∧ s.Clean r := by
    intro s hs
    apply Handover.clean_verify (handed s hs) (proper s hs)
    rw [Handover.name_package (handed s hs)]
    exact trusts s hs
  obtain ⟨reports, hreports, hclean⟩ := exists_mapM clean
  have hreport : v.verify m = some ⟨m.algorithm, reports⟩ := by
    refine Verifier.verify_eq_some_iff.2 ⟨reports, ?_, rfl⟩
    rw [hledgers, List.mapM_map]
    exact hreports
  refine ⟨⟨m.algorithm, reports⟩, ?_, hclean⟩
  rw [Verifier.verifyBytes_of_decode hdecode, hreport, Option.elim_some]

end Morsel

theorem ok_of_isOk {ε α : Type} {x : Except ε α} (h : x.isOk) (a : α) :
    x = .ok (x.toOption.getD a) := by
  cases x with
  | error e => cases h
  | ok b => rfl

namespace Journal

def opened (info : LedgerInfo) : Journal :=
  ⟨info, .new .sha256, none, .empty, [], ⟨128, by decide, [], 0, 0⟩⟩

theorem reachable_opened {info : LedgerInfo} (h : info.validate = .ok ()) :
    (opened info).Reachable := by
  have hsettings : Settings.default.validate = .ok () := by decide +kernel
  have hnew : Journal.new info .default = .ok (opened info) := by
    rw [Journal.new, hsettings, h]
    rfl
  exact .new hnew

def halted : Journal :=
  ((opened { LedgerInfo.new .log "console" with parsing := some .lines }).appendRow
    ⟨[.ofString "boot"]⟩).appendRow ⟨[.ofString "halt"]⟩

def console : Journal :=
  let resumed := ((halted.trim 1).toOption.getD halted).appendRow ⟨[.ofString "ready"]⟩
  resumed.record ⟨2, ⟨resumed.state, 0, []⟩⟩

def vault : Journal :=
  (opened { LedgerInfo.new .table "vault" with salt := .allSalted }).appendInput .sentinel

theorem reachable_console : console.Reachable := by
  have reachable_halted : halted.Reachable := ((reachable_opened rfl).appendRow _).appendRow _
  have trimmed := reachable_halted.trim (n := 1) (ok_of_isOk (by decide +kernel) halted)
  apply (trimmed.appendRow ⟨[.ofString "ready"]⟩).witness (w := fun state => .ok ⟨state, 0, []⟩)
  rw [witness, answered, if_neg (not_not_intro rfl)]
  rfl

end Journal

namespace Handover

def console : Handover where
  journal := .console
  request := {
    paths := [.consistency 1 2]
    rows := [2, 1, 2]
    redacted := [0]
    attestations := true
    rawText := some ⟨1, Utf8.encode "boot\nready\n"⟩ }

def vault : Handover := ⟨.vault, ⟨[.state], [], [], true, none⟩⟩

theorem proper_console : console.Proper where
  ends := by decide +kernel
  whole := by decide +kernel
  spells := by
    intro _ text parsing rows htext hparsing hrows
    cases htext
    cases hparsing
    obtain rfl : rows = [(1, ⟨[.ofString "boot"]⟩), (2, ⟨[.ofString "ready"]⟩)] := by
      apply Except.ok.inj (Option.some.inj (hrows.symm.trans _))
      decide +kernel
    decide +kernel

theorem proper_vault : vault.Proper where
  ends := by decide +kernel
  whole := by decide +kernel
  spells h := by cases h

end Handover

namespace Morsel

def disclosed (m : Morsel) (s : Handover) : Morsel :=
  match m.disclose s.request s.journal with
  | .ok m _ => m
  | .error _ _ => m

theorem Packed.disclosed {m : Morsel} {hs : List Handover} (packed : m.Packed hs) {s : Handover}
    (reachable : s.journal.Reachable) (h : m.disclosed s ≠ m) :
    (m.disclosed s).Packed (hs ++ [s]) := by
  unfold Morsel.disclosed at h ⊢
  split at h
  · next accepted => exact packed.disclose reachable accepted
  · exact absurd rfl h

def shift : Morsel :=
  { ((new .sha256).disclosed .console).disclosed .vault with
    notes := some "one shift"
    assets := some [0] }

theorem verifies_shift : ∃ bytes report, shift.encode = .ok bytes ∧
    (Verifier.new.trust "console" ⟨2, Journal.console.state⟩).verifyBytes .default bytes =
      .ok report ∧
    List.Forall₂ Handover.Clean [.console, .vault] report.ledgers := by
  have one := (Packed.new .sha256).disclosed (s := .console) Journal.reachable_console
    (by decide +kernel)
  have two := one.disclosed (s := .vault) (.appendInput _ (Journal.reachable_opened rfl))
    (by decide +kernel)
  have packed : shift.Packed [.console, .vault] := (two.notes "one shift").assets [0]
  have proper : ∀ s ∈ [Handover.console, .vault], s.Proper := by
    simp [Handover.proper_console, Handover.proper_vault]
  have sized : ∀ s ∈ [Handover.console, .vault], s.Sized :=
    List.forall_mem_cons.2 ⟨⟨by decide +kernel, by decide⟩,
      List.forall_mem_singleton.2 ⟨by decide +kernel, by decide⟩⟩
  obtain ⟨-, bytes, hbytes, verified⟩ := packed.verifies (by simp) (fun _ => rfl) proper sized
  have trusts : ∀ s ∈ [Handover.console, .vault],
      (Verifier.new.trust "console" ⟨2, Journal.console.state⟩).trusted? s.journal.name = none ∨
      (Verifier.new.trust "console" ⟨2, Journal.console.state⟩).trusted? s.journal.name =
        some ⟨s.journal.size, s.journal.state⟩ :=
    List.forall_mem_cons.2 ⟨.inr (by decide +kernel),
      List.forall_mem_singleton.2 (.inl (by decide +kernel))⟩
  obtain ⟨report, hreport, clean⟩ := verified .default
    ⟨by decide, by decide, by decide, by decide⟩ (by decide +kernel) _ trusts
  exact ⟨bytes, report, hbytes, hreport, clean⟩

end Morsel

end SkipChain
