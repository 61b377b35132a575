import SkipChain.Proofs.Journal.Operation
import SkipChain.Proofs.Table.Delimited
/-!
Salts of the rows that a journal makes of plain values. A salt is derived from the number that the
row is about to get, so what a run does before matters only through the size it leaves, and what
salts are derived from is different for different cells.
-/
namespace SkipChain

namespace TableSalt

variable {t : TableSalt} {scheme : SaltScheme} {row row' column column' : Nat} {value : Value}
  {values : List Value} {cells : List Cell}

theorem preimage_injective (hrow : row < Word.count64) (hrow' : row' < Word.count64)
    (hcolumn : column < Word.count32) (hcolumn' : column' < Word.count32)
    (h : t.preimage row column = t.preimage row' column') : row = row' ∧ column = column' := by
  unfold preimage at h
  obtain ⟨hfront, hback⟩ := List.append_inj' h (by simp only [Bytes.length_bigEndian])
  have hmiddle := List.append_cancel_left hfront
  exact ⟨Bytes.bigEndian_injective hrow hrow' hmiddle,
    Bytes.bigEndian_injective hcolumn hcolumn' hback⟩

theorem allowed_saltFor? :
    Cell.Allowed value (t.saltFor? scheme row column value) ↔ ¬value.isNaN := by
  apply and_iff_left
  rintro ⟨hhash, hsalted⟩
  simp [saltFor?, hhash, ColumnType.saltable] at hsalted

theorem saltCells_spec (h : t.saltCells scheme row column values = .ok cells) :
    cells.map Cell.value = values ∧ ∀ (k : Nat) (cell : Cell), cells[k]? = some cell →
      cell.salt = t.saltFor? scheme row (column + k) cell.value := by
  induction values generalizing column cells with
  | nil =>
    cases h
    exact ⟨rfl, nofun⟩
  | cons value values ih =>
    simp only [saltCells, bind_eq_ok, pure_eq_ok] at h
    obtain ⟨cell, hmake, later, hlater, rfl⟩ := h
    obtain ⟨rfl, hsalt⟩ := Cell.make_eq_ok hmake
    obtain ⟨hvalues, hsalts⟩ := ih hlater
    refine ⟨by rw [List.map_cons, hvalues], fun k found hfound => ?_⟩
    cases k with
    | zero =>
      cases hfound
      exact hsalt
    | succ k =>
      rw [hsalts k found hfound, Nat.add_right_comm, Nat.add_assoc]

theorem exists_saltCells_iff (t : TableSalt) (scheme : SaltScheme) (row column : Nat)
    (values : List Value) :
    (∃ cells, t.saltCells scheme row column values = .ok cells) ↔ ∀ v ∈ values, ¬v.isNaN := by
  induction values generalizing column with
  | nil => simp [saltCells]
  | cons value values ih =>
    rw [List.forall_mem_cons, ← ih (column + 1), ← allowed_saltFor?, ← Cell.exists_make_iff]
    simp only [saltCells, bind_eq_ok, pure_eq_ok]
    constructor
    · rintro ⟨_, cell, hmake, later, hlater, rfl⟩
      exact ⟨⟨cell, hmake⟩, later, hlater⟩
    · rintro ⟨⟨cell, hmake⟩, later, hlater⟩
      exact ⟨cell :: later, cell, hmake, later, hlater, rfl⟩

theorem salt_ne (free : t.algorithm.digest.CollisionFree
      [t.preimage row column, t.preimage row' column'])
    (h : t.preimage row column ≠ t.preimage row' column') :
    t.salt row column ≠ t.salt row' column' := by
  intro heq
  apply h
  apply free _ (by simp) _ (by simp)
  exact Digest.eq_of_bytes_eq (congrArg Salt.bytes heq)

end TableSalt

namespace Operation

variable {op : Operation} {j i : Journal}

theorem Leaves.kept (h : op.Leaves j i) :
    i.info = j.info ∧ i.tableSalt = j.tableSalt ∧ i.algorithm = j.algorithm := by
  cases h with
  | cut _ htrim =>
    obtain ⟨l, hl, rfl⟩ := Journal.trim_eq_ok htrim
    exact ⟨rfl, rfl, (Ledger.continues_trim hl).algorithm_eq⟩
  | _ => exact ⟨rfl, rfl, rfl⟩

end Operation

namespace Journal

variable {j i : Journal} {t : TableSalt} {n : Nat} {row : Row} {values : List Value}

theorem kept_after (j : Journal) (ops : List Operation) :
    (j.after ops).info = j.info ∧ (j.after ops).tableSalt = j.tableSalt ∧
      (j.after ops).algorithm = j.algorithm := by
  induction ops generalizing j with
  | nil => exact ⟨rfl, rfl, rfl⟩
  | cons op ops ih =>
    obtain ⟨hinfo, hsalt, halgorithm⟩ := (op.leaves j).kept
    rw [← hinfo, ← hsalt, ← halgorithm]
    exact ih (op.leave j)

def Retains (j : Journal) (n : Nat) (row : Row) : Prop := n ≤ j.size ∧ j.rows.get? n = some row

theorem retains_appendRow (j : Journal) (row : Row) :
    (j.appendRow row).Retains (j.size + 1) row := by
  have hsize := size_appendInput j (row.hash j.algorithm.digest)
  refine ⟨Nat.le_of_eq hsize.symm, ?_⟩
  simp only [Journal.appendRow, hsize, NatMap.get?_insert, if_true]

theorem Retains.leave {op : Operation} (h : j.Retains n row)
    (hcut : ∀ k, op = .trim k → n ≤ k) : (op.leave j).Retains n row := by
  obtain ⟨hn, hrow⟩ := h
  have leaves := op.leaves j
  generalize op.leave j = left at leaves ⊢
  cases leaves with
  | paths paths => exact ⟨hn, hrow⟩
  | record a => exact ⟨hn, hrow⟩
  | input input => exact ⟨by rw [size_appendInput]; omega, hrow⟩
  | row added =>
    have hsize := size_appendInput j (added.hash j.algorithm.digest)
    refine ⟨Nat.le_trans hn (Nat.le_trans (Nat.le_succ _) (Nat.le_of_eq hsize.symm)), ?_⟩
    simp only [Journal.appendRow, hsize, NatMap.get?_insert]
    -- the added row has the number after the size, which is beyond n
    rw [if_neg (by omega)]
    exact hrow
  | @cut k left hop htrim =>
    have hle := hcut k hop
    obtain ⟨l, hl, rfl⟩ := trim_eq_ok htrim
    obtain ⟨hk, rfl⟩ := Ledger.trim_eq_ok_iff.1 hl
    have hsize : (j.ledger.rows.take k).size = k := by
      rw [Ledger.size] at hk
      simpa using hk
    refine ⟨Nat.le_trans hle (Nat.le_of_eq hsize.symm), ?_⟩
    apply NatMap.mem_toList_iff.1
    exact List.mem_filter.2 ⟨NatMap.mem_toList_iff.2 hrow, by simpa using hle⟩

theorem Retains.after (h : j.Retains n row) {ops : List Operation}
    (hcut : ∀ k, .trim k ∈ ops → n ≤ k) : (j.after ops).Retains n row := by
  induction ops generalizing j with
  | nil => exact h
  | cons op ops ih =>
    apply ih (h.leave fun k hk => hcut k (hk ▸ List.mem_cons_self))
    exact fun k hk => hcut k (List.mem_cons_of_mem op hk)

theorem Reachable.salt_algorithm (reachable : j.Reachable) (h : j.tableSalt = some t) :
    t.algorithm = j.algorithm := by
  induction reachable with
  | new hnew =>
    simp only [Journal.new, bind_eq_ok, pure_eq_ok] at hnew
    obtain ⟨_, _, _, _, paths, _, rfl⟩ := hnew
    cases h
  | withTableSalt _ hsalt ih =>
    unfold Journal.withTableSalt at hsalt
    split at hsalt
    · cases hsalt
    · next halgorithm =>
      cases hsalt
      cases h
      exact not_not.1 halgorithm
  | appendInput input _ ih => exact ih h
  | appendRow row _ ih => exact ih h
  | appendValues _ happend ih =>
    obtain ⟨row, -, happend⟩ := bind_eq_ok.1 happend
    obtain rfl := pure_eq_ok.1 happend
    exact ih h
  | trim _ htrim ih =>
    obtain ⟨-, hsalt, halgorithm⟩ := (Operation.Leaves.cut rfl htrim).kept
    rw [halgorithm, ih (hsalt ▸ h)]
  | witness _ hw ih =>
    obtain ⟨rfl, -⟩ := witness_eq_ok hw
    exact ih h
  | @path j left r _ hpath ih =>
    obtain ⟨paths, ⟨p, hanswer⟩ | ⟨e, hanswer⟩⟩ := path_cases r j <;>
      obtain ⟨_, hpath⟩ | ⟨_, hpath⟩ := hpath <;> cases hanswer.symm.trans hpath <;> exact ih h

theorem appendValues_salted (hsalt : j.tableSalt = some t) (h : j.appendValues values = .ok i) :
    ∃ row, i = j.appendRow row ∧ row.cells.map Cell.value = values ∧
      ∀ (column : Nat) (cell : Cell), row.cells[column]? = some cell →
        cell.salt = t.saltFor? j.info.salt (j.size + 1) column cell.value := by
  simp only [Journal.appendValues, nextRow, hsalt, TableSalt.saltRow, bind_eq_ok, pure_eq_ok,
    mapError_eq_ok] at h
  obtain ⟨row, ⟨cells, hcells, rfl⟩, rfl⟩ := h
  obtain ⟨hvalues, hsalts⟩ := TableSalt.saltCells_spec hcells
  refine ⟨⟨cells⟩, rfl, hvalues, fun column cell hcell => ?_⟩
  rw [hsalts column cell hcell, Nat.zero_add]

theorem exists_appendValues_iff (hsalt : j.tableSalt = some t) :
    (∃ i, j.appendValues values = .ok i) ↔ ∀ v ∈ values, ¬v.isNaN := by
  rw [← TableSalt.exists_saltCells_iff t j.info.salt (j.size + 1) 0]
  simp only [Journal.appendValues, nextRow, hsalt, TableSalt.saltRow, bind_eq_ok, pure_eq_ok,
    mapError_eq_ok]
  constructor
  · rintro ⟨i, row, ⟨cells, hcells, rfl⟩, rfl⟩
    exact ⟨cells, hcells⟩
  · rintro ⟨cells, hcells⟩
    exact ⟨_, _, ⟨cells, hcells, rfl⟩, rfl⟩

/-- However a run goes, values are then appended to a journal with a table salt unless one of them
is a NaN. The row gets the next number and keeps it, with these values, until it is cut off. Its
cells are salted where the scheme says so and the value is not a hash, with what the hash makes of
seed, row number and column. Row numbers have 64 bits; salts of different cells in columns of 32
bits are derived from different bytes, and are different unless the hash collides on these. -/
theorem salted_after (reachable : j.Reachable) (hsalt : j.tableSalt = some t)
    (ops : List Operation) (values : List Value) :
    ((∃ e i, (Operation.appendValues values).perform (j.after ops) = .error e i) ↔
      ∃ v ∈ values, v.isNaN) ∧
    (∀ answer i, (Operation.appendValues values).perform (j.after ops) = .ok answer i →
      ∃ n row, answer = .row n ∧ n = (j.after ops).size + 1 ∧ i.size = n ∧
        (∀ later, (∀ k, .trim k ∈ later → n ≤ k) → (i.after later).rows.get? n = some row) ∧
        row.cells.map Cell.value = values ∧
        ∀ (column : Nat) (cell : Cell), row.cells[column]? = some cell →
          cell.salt = if j.info.salt.isSalted column ∧ cell.columnType ≠ .hash then
            some (.ofDigest (j.algorithm.digest
              (t.seed ++ Bytes.bigEndian 8 n ++ Bytes.bigEndian 4 column)))
          else none) ∧
    ∀ row column row' column', row < Word.count64 → row' < Word.count64 →
      column < Word.count32 → column' < Word.count32 → (row, column) ≠ (row', column') →
        t.preimage row column ≠ t.preimage row' column' ∧
        (j.algorithm.digest.CollisionFree [t.preimage row column, t.preimage row' column'] →
          t.salt row column ≠ t.salt row' column') := by
  have halgorithm := reachable.salt_algorithm hsalt
  obtain ⟨hinfo, hkept, -⟩ := kept_after j ops
  rw [hsalt] at hkept
  rw [← hinfo, ← halgorithm]
  generalize j.after ops = i at hkept
  refine ⟨?_, fun answer left hperform => ?_, fun row column row' column' hrow hrow' hcolumn
    hcolumn' hne => ?_⟩
  · have hfails : (∃ e left, (Operation.appendValues values).perform i = .error e left) ↔
        ¬∃ left, i.appendValues values = .ok left := by
      rw [Operation.perform_appendValues]
      cases i.appendValues values <;> simp
    rw [hfails, exists_appendValues_iff hkept]
    push Not
    rfl
  · rw [Operation.perform_appendValues] at hperform
    split at hperform <;> cases hperform
    next happend =>
    obtain ⟨row, rfl, hvalues, hsalts⟩ := appendValues_salted hkept happend
    have hsize : (i.appendRow row).size = i.size + 1 := size_appendInput i _
    refine ⟨_, row, rfl, hsize, rfl, fun later hcut => ?_, hvalues, fun column cell hcell => ?_⟩
    · rw [hsize] at hcut ⊢
      exact ((retains_appendRow i row).after hcut).2
    · rw [hsalts column cell hcell, hsize]
      simp [TableSalt.saltFor?, ColumnType.saltable, TableSalt.salt, TableSalt.preimage,
        Cell.columnType]
  · have hpreimage : t.preimage row column ≠ t.preimage row' column' := by
      intro h
      obtain ⟨rfl, rfl⟩ := TableSalt.preimage_injective hrow hrow' hcolumn hcolumn' h
      exact hne rfl
    exact ⟨hpreimage, fun free => TableSalt.salt_ne free hpreimage⟩

def ward : Journal := { forgetful with
  info := { LedgerInfo.new .table "ward" with salt := .unsalted (.ofList [1]) }
  tableSalt := some ⟨.sha256, List.replicate 32 7⟩ }

theorem reachable_ward : ward.Reachable := by
  have hsettings : { Settings.default with cacheCapacity := 1 }.validate = .ok () := by
    decide +kernel
  have hnew : Journal.new ward.info { Settings.default with cacheCapacity := 1 } =
      .ok { ward with tableSalt := none } := by
    rw [Journal.new, hsettings]
    rfl
  have hsalt : { ward with tableSalt := none }.withTableSalt ⟨.sha256, List.replicate 32 7⟩ =
      .ok ward := rfl
  exact (Reachable.new hnew).withTableSalt hsalt

def readmitted : List Operation :=
  [.appendRow ⟨[.ofString "bed"]⟩, .appendInput .sentinel, .appendValues [.string "Ada", .long 1],
    .trim 2, .appendValues [.double 0x7FF8000000000000]]

theorem salted_after_readmitted :
    ∃ left row,
      (Operation.appendValues [.string "Eve", .long 7, .hash .sentinel, .double 0]).perform
        (ward.after readmitted) = .ok (.row 3) left ∧
      (left.after [.appendInput .sentinel, .trim 3]).rows.get? 3 = some row ∧
      row.cells.map Cell.isSalted = [true, false, false, true] := by
  obtain ⟨hfails, hsalted, -⟩ := salted_after reachable_ward rfl readmitted
    [.string "Eve", .long 7, .hash .sentinel, .double 0]
  have hsize : (ward.after readmitted).size = 2 := by decide +kernel
  generalize hperform : (Operation.appendValues
    [.string "Eve", .long 7, .hash .sentinel, .double 0]).perform (ward.after readmitted) = outcome
  cases outcome with
  | error e i => exact absurd (hfails.1 ⟨e, i, hperform⟩) (by decide)
  | ok answer left =>
    obtain ⟨n, ⟨cells⟩, rfl, hn, -, hkept, hvalues, hsalts⟩ := hsalted answer left hperform
    rw [hsize] at hn
    subst hn
    refine ⟨left, ⟨cells⟩, rfl, hkept _ (by simp), ?_⟩
    simp only [List.map_eq_cons_iff, List.map_eq_nil_iff] at hvalues
    obtain ⟨a, _, rfl, ha, b, _, rfl, hb, c, _, rfl, hc, d, _, rfl, hd, rfl⟩ := hvalues
    simp only [List.map_cons, List.map_nil, Cell.isSalted, hsalts 0 a rfl, hsalts 1 b rfl,
      hsalts 2 c rfl, hsalts 3 d rfl, Cell.columnType, ha, hb, hc, hd]
    rfl

end Journal

end SkipChain
