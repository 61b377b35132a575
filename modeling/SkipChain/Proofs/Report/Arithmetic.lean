import SkipChain.Proofs.Morsel.Normal
import SkipChain.Proofs.Report.Checks
import SkipChain.Proofs.Skip.Links
import SkipChain.Report.Checked
/-!
The arithmetic of checking a morsel in words. The links of every row that a path can have are exact,
and so is every count. The numbers of the rows that a text spells need not stay in their word: they
start anywhere, and where they leave it there is no report.
-/
namespace SkipChain

theorem mapM_eq_some {α β : Type} {f : α → Option β} {g : α → β} {as : List α}
    (h : ∀ a ∈ as, f a = some (g a)) : as.mapM f = some (as.map g) := by
  rw [mapM_eq_some_iff, List.forall₂_map_right_iff, List.forall₂_same]
  exact h

theorem foldlM_eq_some {α σ : Type} {f : σ → α → Option σ} {g : σ → α → σ} {as : List α}
    (h : ∀ a ∈ as, ∀ s, f s a = some (g s a)) (s : σ) : as.foldlM f s = some (as.foldl g s) := by
  induction as generalizing s with
  | nil => rfl
  | cons a as ih =>
    obtain ⟨ha, has⟩ := List.forall_mem_cons.1 h
    rw [List.foldlM_cons, ha s]
    exact ih has (g s a)

namespace Checked

variable {H : Hash} {trusted : Option TrustedRow} {p : Path} {k : Package} {row : Nat}

theorem references_eq (h : row < Word.count64) : references row = some (Skip.references row) := by
  rw [references, referenceCount_eq h]
  apply mapM_eq_some
  intro level hlevel
  rw [List.mem_range] at hlevel
  obtain ⟨hrow, hle⟩ := Skip.lt_referenceCount_iff.1 hlevel
  have hbound : level < 64 := Nat.lt_of_lt_of_le hlevel (Skip.referenceCount_le h)
  have hbit : 1 <<< level ≤ row := Nat.one_shiftLeft level ▸ Skip.two_pow_le hrow hle
  rw [reference, Word.bit?, if_pos hbound, Option.bind_eq_bind, Option.bind_some, Word.sub?,
    if_pos hbit, Word.add?, if_pos (by simp only [Word.count32]; omega)]
  simp [Word.sub?, Nat.succ_le_of_lt hlevel]

theorem row_lt (h : p.high < Word.count64) {e : Nat × PathEntry} (he : e ∈ p.entries.toList) :
    e.1 < Word.count64 :=
  Nat.lt_of_le_of_lt (Path.entry_bounds (NatMap.mem_toList_iff.1 he)).2 h

theorem entryFlaw_eq (entry : PathEntry) (h : row < Word.count64) :
    entryFlaw H p row entry = some (p.entryFlaw? H row entry) := by
  unfold entryFlaw Path.entryFlaw?
  cases entry.input with
  | none => rfl
  | some input =>
    simp only [references_eq h]
    rfl

theorem linkFlaw_eq (h : p.high < Word.count64) : linkFlaw H p = some (p.linkFlaw? H) := by
  have hentries : p.entries.toList.mapM (fun e => entryFlaw H p e.1 e.2) =
      some (p.entries.toList.map fun e => p.entryFlaw? H e.1 e.2) :=
    mapM_eq_some fun e he => entryFlaw_eq e.2 (row_lt h he)
  rw [linkFlaw, hentries]
  change some (List.findSome? id _) = _
  rw [List.findSome?_map]
  rfl

theorem referenced_eq (h : p.high < Word.count64) : referenced p = some p.referenced := by
  rw [referenced, mapM_eq_some fun e he => references_eq (row_lt h (List.mem_of_mem_filter he))]
  rfl

theorem rootFlaw_eq (h : p.high < Word.count64) : rootFlaw p = some p.rootFlaw? := by
  rw [rootFlaw, Path.rootFlaw?, referenced_eq h]
  cases p.required.find? fun r => !p.contains r <;> rfl

theorem verify_eq (h : p.high < Word.count64) (hash : Digest) (row : Nat) :
    verify H p hash row = some (p.verify H hash row) := by
  rw [verify, Path.verify, linkFlaw_eq h, rootFlaw_eq h]
  simp only [Option.bind_eq_bind, Option.bind_some, Option.pure_def]
  cases p.linkFlaw? H with
  | some flaw => rfl
  | none =>
    cases p.hash? row with
    | none => rfl
    | some found =>
      dsimp only
      split
      · rfl
      · cases p.rootFlaw? <;> rfl

theorem checkPath_eq (h : p.high < Word.count64) (trusted : Option TrustedRow) :
    checkPath H trusted p = some (Package.checkPath H trusted p) := by
  cases trusted with
  | none => exact verify_eq h _ _
  | some t =>
    simp only [checkPath, Package.checkPath, verify_eq h]
    split <;> rfl

theorem pathFailure_eq (h : p.high < Word.count64) (trusted : Option TrustedRow) :
    pathFailure H trusted p = some (Package.pathFailure? H trusted p) := by
  rw [pathFailure, Package.pathFailure?, checkPath_eq h]
  simp only [Option.bind_eq_bind, Option.bind_some]
  cases Package.checkPath H trusted p <;> rfl

theorem learnEntry_eq (a : Authenticated) (entry : PathEntry) (h : row < Word.count64) :
    learnEntry p a row entry = some (a.learnEntry p row entry) := by
  unfold learnEntry Authenticated.learnEntry
  cases entry.input with
  | none => rfl
  | some input =>
    simp only [references_eq h]
    split <;> rfl

theorem learnPath_eq (h : p.high < Word.count64) (a : Authenticated) :
    learnPath a p = some (a.learnPath p) :=
  foldlM_eq_some
    (fun e he b => learnEntry_eq b e.2 (row_lt h (List.mem_reverse.1 he))) a

theorem learnAll_eq {paths : List Path} (h : ∀ p ∈ paths, p.high < Word.count64) (fuel : Nat)
    (a : Authenticated) : learnAll paths fuel a = some (a.learnAll paths fuel) := by
  induction fuel generalizing a with
  | zero => rfl
  | succ fuel ih =>
    have hpass : paths.foldlM learnPath a = some (paths.foldl Authenticated.learnPath a) :=
      foldlM_eq_some (fun p hp b => learnPath_eq (h p hp) b) a
    rw [learnAll, Authenticated.learnAll, hpass]
    simp only [Option.bind_eq_bind, Option.bind_some, ih]
    split <;> rfl

theorem ofPaths_eq {paths : List Path} (h : ∀ p ∈ paths, p.high < Word.count64)
    (root : Option (Nat × Digest)) : ofPaths root paths = some (.ofPaths root paths) :=
  learnAll_eq h _ _

theorem passed_foldlM {checks : List (Option Failure)} {n : Nat}
    (h : n + Package.passed checks < Word.count64) :
    checks.foldlM (fun n check => if check.isNone then Word.add? Word.count64 n 1 else return n) n =
      some (n + Package.passed checks) := by
  induction checks generalizing n with
  | nil => rfl
  | cons check checks ih =>
    rw [List.foldlM_cons]
    cases check with
    | none =>
      have hcount : Package.passed (none :: checks) = 1 + Package.passed checks := by
        rw [Package.passed, List.countP_cons_of_pos rfl, Nat.add_comm, Package.passed]
      rw [hcount, ← Nat.add_assoc] at h ⊢
      have hnext : Word.add? Word.count64 n 1 = some (n + 1) :=
        if_pos (Nat.lt_of_le_of_lt (Nat.le_add_right _ _) h)
      simp only [Option.isNone_none, if_true, hnext]
      exact ih h
    | some failure => exact ih h

theorem passed_eq {checks : List (Option Failure)} (h : Package.passed checks < Word.count64) :
    passed checks = some (Package.passed checks) := by
  rw [passed, passed_foldlM (by rwa [Nat.zero_add]), Nat.zero_add]

theorem length_textRows_lt (k : Package) : k.textRows.length < Word.count64 := by
  rcases k.readable_or_unread with ⟨text, parsing, hread⟩ | hunread
  · rw [hread.textRows_eq]
    split
    · next rows hrows =>
      obtain ⟨spelled, -, hfit, rfl⟩ := RowParsing.rows_eq_ok_iff.1 hrows
      rw [List.length_mapIdx]
      rcases hfit with rfl | hfit
      · decide
      · omega
    · decide
  · rw [Package.textRows_of_unread hunread]
    decide

theorem passed_textRowChecks_eq {a : Authenticated} {checks : List (Option Failure)}
    (h : k.textRowChecks H a = some checks) : passed checks = some (Package.passed checks) := by
  apply passed_eq
  rw [Package.passed_textRowChecks h]
  exact Nat.lt_of_le_of_lt (List.length_filter_le _ _) (length_textRows_lt k)

theorem passed_map_eq {α : Type} (check : α → Option Failure) {xs : List α}
    (h : xs.length < Word.count64) : passed (xs.map check) = some (Package.passed (xs.map check)) := by
  apply passed_eq
  rw [Package.passed_map]
  exact Nat.lt_of_le_of_lt (List.length_filter_le _ _) h

theorem ledgerReport_eq (h : k.Sized) (hpaths : k.paths.length < Word.count64)
    (hsourceRows : k.sourceRows.length < Word.count64)
    (hattestations : k.attestations.length < Word.count64) (H : Hash)
    (trusted : Option TrustedRow) : ledgerReport H trusted k = k.verify H trusted := by
  have hchecked : (k.paths.mapM fun p => do return (p, ← pathFailure H trusted p)) =
      some (k.paths.map fun p => (p, Package.pathFailure? H trusted p)) := by
    apply mapM_eq_some
    intro p hp
    rw [pathFailure_eq (h.paths p hp)]
    rfl
  have hfailures : (k.paths.map fun p => (p, Package.pathFailure? H trusted p)).map Prod.snd =
      k.paths.map (Package.pathFailure? H trusted) := by
    rw [List.map_map]
    rfl
  have hverified : ((k.paths.map fun p => (p, Package.pathFailure? H trusted p)).filter
      fun c => c.2.isNone).map Prod.fst = k.verifiedPaths H trusted := by
    rw [List.filter_map, List.map_map]
    exact List.map_id _
  have hauthenticated : ofPaths (Package.root? trusted (k.verifiedPaths H trusted))
      (k.verifiedPaths H trusted) = some (k.authenticated H trusted) :=
    ofPaths_eq (fun p hp => h.paths p (List.mem_of_mem_filter hp)) _
  rw [ledgerReport, hchecked, Option.bind_eq_bind, Option.bind_some]
  dsimp only
  rw [hfailures, hverified, hauthenticated, Option.bind_eq_bind, Option.bind_some, Package.verify]
  cases htext : k.textRowChecks H (k.authenticated H trusted) with
  | none => rfl
  | some checks =>
    rw [passed_map_eq _ hpaths, Package.sourceRowChecks, passed_map_eq _ hsourceRows,
      passed_map_eq _ hattestations]
    simp only [Option.bind_eq_bind, Option.bind_some, passed_textRowChecks_eq htext]
    rfl

end Checked

namespace Package

variable {p : Package} {s : LedgerSection}

theorem length_segment_le (p : Package) (t : LedgerTag) :
    (p.segment t).length ≤ p.encode.length := by
  have hsections : (p.segment t).length ≤ p.sections.length := by
    rw [sections_eq_flatMap, List.flatMap_def]
    exact (List.sublist_flatten_of_mem (List.mem_map_of_mem (by cases t <;> decide))).length_le
  have hnonempty (s : LedgerSection) : s.toSection.encode ≠ [] := List.cons_ne_nil _ _
  exact Nat.le_trans hsections (length_le_length_flatMap hnonempty p.sections)

end Package

namespace Morsel

variable {limits : Limits} {m : Morsel} {data : Bytes} {k : Package}

theorem length_encode_le (h : decode limits data = .ok m) (hk : k ∈ m.ledgers) :
    k.encode.length ≤ data.length := by
  obtain ⟨-, hsections⟩ := decode_spec h
  obtain ⟨-, -, hshort⟩ := within_of_decodeSections hsections
  have hmem : MorselSection.ofPackage k ∈ m.sections := by
    rw [sections_eq]
    exact List.mem_cons_of_mem _ (List.mem_append_right _ (List.mem_map_of_mem hk))
  have hpart : (MorselSection.ofPackage k).encode.length ≤
      (m.sections.flatMap Section.encode).length := length_le_flatMap hmem
  have hbody : k.encode.length ≤ (MorselSection.ofPackage k).encode.length := by
    simp only [MorselSection.ofPackage, Section.encode, Wire.tagged, Wire.block, List.length_cons,
      List.length_append]
    omega
  have hmiddle : (middle data).length ≤ data.length := by
    rw [middle, List.length_drop, List.length_take]
    omega
  omega

end Morsel

theorem Checked.report_eq {limits : Limits} {data : Bytes} {m : Morsel}
    (h : Morsel.decode limits data = .ok m) (hdata : data.length < Word.count64) (v : Verifier) :
    Checked.report v m = v.verify m := by
  obtain ⟨hsized, -, -⟩ := Morsel.within_of_decodeSections (Morsel.decode_spec h).2
  rw [Checked.report, Verifier.verify, mapM_congr]
  intro k hk
  -- each path, row shown and attestation has a section, so there are fewer of them than bytes
  have hbytes (t : LedgerTag) : (k.segment t).length < Word.count64 :=
    Nat.lt_of_le_of_lt (Nat.le_trans (k.length_segment_le t) (Morsel.length_encode_le h hk)) hdata
  have hpaths := hbytes .path
  have hsourceRows := hbytes .sourceRow
  have hattestations := hbytes .attestation
  simp only [Package.segment, List.length_map] at hpaths hsourceRows hattestations
  exact ledgerReport_eq (hsized k hk) hpaths hsourceRows hattestations m.algorithm.digest
    (v.trusted? k.name)

theorem RowParsing.numbers_of_rows {p : RowParsing} {raw : Bytes} {first : Nat}
    {rows : List (Nat × Row)} (h : p.rows raw first = some (.ok rows)) :
    (∀ i, (hi : i < rows.length) → (rows[i]).1 = first + i) ∧
      (rows.map Prod.fst).Pairwise (· < ·) := by
  obtain ⟨spelled, -, -, rfl⟩ := rows_eq_ok_iff.1 h
  have hexact (i : Nat) (hi : i < (spelled.mapIdx fun i row => (first + i, row)).length) :
      ((spelled.mapIdx fun i row => (first + i, row))[i]).1 = first + i := by
    rw [List.getElem_mapIdx]
  refine ⟨hexact, ?_⟩
  rw [List.pairwise_map, List.pairwise_iff_getElem]
  intro i j hi hj hij
  rw [hexact i hi, hexact j hj]
  omega

namespace Verifier

variable {limits : Limits} {data : Bytes} {m : Morsel}

/-- Of data that are read as a morsel, the report is made in words exactly when the numbers of the
rows that the texts spell fit, whatever is trusted: the paths and the counts never leave a word. The
program stops if some numbers do not fit, and it stops nowhere else. Where it goes on, rows are
numbered in turn, and their numbers ascend. The bound on the data is that of anything that is held in
memory. -/
theorem checked_report (h : Morsel.decode limits data = .ok m) (hdata : data.length < Word.count64)
    (v : Verifier) :
    ((∀ k ∈ m.ledgers, k.NumbersFit) →
        ∃ report, v.verifyBytes limits data = .ok report ∧ Checked.report v m = some report) ∧
      ((∃ k ∈ m.ledgers, ¬k.NumbersFit) →
        v.verifyBytes limits data = .error .overflow ∧ Checked.report v m = none) ∧
      ∀ (parsing : RowParsing) (raw : Bytes) (first : Nat),
        (parsing.rows raw first = none ↔ ∃ spelled, parsing.spell raw = .ok spelled ∧
          spelled ≠ [] ∧ Word.count64 ≤ first + spelled.length) ∧
        ∀ rows, parsing.rows raw first = some (.ok rows) →
          (∀ i, (hi : i < rows.length) → (rows[i]).1 = first + i) ∧
            (rows.map Prod.fst).Pairwise (· < ·) := by
  rw [Checked.report_eq h hdata, verifyBytes_of_decode h]
  refine ⟨fun hfit => ?_, fun hlong => ?_, fun parsing raw first =>
    ⟨RowParsing.rows_eq_none_iff, fun rows => RowParsing.numbers_of_rows⟩⟩
  · obtain ⟨report, hreport⟩ := Option.ne_none_iff_exists'.1 (verify_ne_none_iff.2 hfit)
    rw [hreport]
    exact ⟨report, rfl, rfl⟩
  · have hstop : v.verify m = none := by
      by_contra hreport
      obtain ⟨k, hk, hnot⟩ := hlong
      exact hnot (verify_ne_none_iff.1 hreport k hk)
    rw [hstop]
    exact ⟨rfl, rfl⟩

def lateText : Bytes :=
  [83, 75, 76, 77, 0, 1, 1, 0, 1, 3, 1, 1, 97, 16, 30, 1, 3, 3, 1, 97, 5, 1, 2, 7, 5, 1, 10, 0, 0,
    2, 10, 13, 253, 255, 255, 255, 255, 255, 255, 255, 255, 1, 97, 10, 98, 231, 10, 58, 81]

theorem checked_report_lateText :
    ∃ m report, Morsel.decode .default lateText = .ok m ∧ lateText.length < Word.count64 ∧
      (m.ledgers.map fun k => k.textRows.map Prod.fst) =
        [[Word.count64 - 3, Word.count64 - 2]] ∧
      new.verifyBytes .default lateText = .ok report ∧ Checked.report .new m = some report := by
  have hread : Morsel.decode .default lateText = .ok ⟨.sha256, none, none,
      [{ Package.new { LedgerInfo.new .log "a" with parsing := some .lines } with
        rawText := some ⟨Word.count64 - 3, [97, 10, 98]⟩ }]⟩ := by decide +kernel
  have hlength : lateText.length < Word.count64 := by decide
  have evaluated : new.verify ⟨.sha256, none, none,
      [{ Package.new { LedgerInfo.new .log "a" with parsing := some .lines } with
        rawText := some ⟨Word.count64 - 3, [97, 10, 98]⟩ }]⟩ ≠ none := by decide +kernel
  obtain ⟨report, hreport, hchecked⟩ :=
    (checked_report hread hlength .new).1 (verify_ne_none_iff.1 evaluated)
  exact ⟨_, report, hread, hlength, by decide +kernel, hreport, hchecked⟩

def overlongText : Bytes :=
  [83, 75, 76, 77, 0, 1, 1, 0, 1, 3, 1, 1, 97, 16, 30, 1, 3, 3, 1, 97, 5, 1, 2, 7, 5, 1, 10, 0, 0,
    2, 10, 13, 255, 255, 255, 255, 255, 255, 255, 255, 255, 1, 97, 10, 98, 135, 86, 143, 26]

/-- The text is read, its second row would be numbered 2 ^ 64, and there is no report. -/
theorem overlongText_overflows :
    ∃ m, Morsel.decode .default overlongText = .ok m ∧
      (∃ k ∈ m.ledgers, ∃ text parsing, k.Readable text parsing ∧
        text.first = Word.count64 - 1 ∧ parsing.rows text.bytes text.first = none) ∧
      new.verifyBytes .default overlongText = .error .overflow := by
  refine ⟨⟨.sha256, none, none,
    [{ Package.new { LedgerInfo.new .log "a" with parsing := some .lines } with
      rawText := some ⟨Word.count64 - 1, [97, 10, 98]⟩ }]⟩, by decide +kernel,
    ⟨_, List.mem_cons_self, _, _, ⟨rfl, rfl, rfl⟩, rfl, ?_⟩, ?_⟩ <;> decide +kernel

end Verifier

end SkipChain
