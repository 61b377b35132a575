import Mathlib.Data.List.Basic
import SkipChain.Morsel.RowParsing
import SkipChain.Proofs.Wire.Utf8
/-!
Raw text whose rows end with a single character. Where blank lines are left out, a text may be cut
after any delimiter and read in parts. Where nothing is left out, each line is a row, but a text of
nothing except one delimiter has no row.
-/
namespace SkipChain.RowParsing

variable {p : RowParsing} {d : Char} {first : Nat}

theorem spell_encode (valid : p.validate = .ok ()) (text : String) :
    p.spell (Utf8.encode text) = .ok ((p.rowLines text.toList).map p.tokenize) := by
  rw [spell, valid, Utf8.decode_encode]
  rfl

theorem rows_encode (valid : p.validate = .ok ()) (text : String) (first : Nat) :
    p.rows (Utf8.encode text) first =
      (number first ((p.rowLines text.toList).map p.tokenize)).map .ok := by
  rw [rows, spell_encode valid]
  exact Option.map_eq_bind.symm

theorem rowLines_nil (p : RowParsing) : p.rowLines [] = [] := by
  rw [rowLines, Text.dropEnding_nil]

theorem number_eq (first : Nat) (rows : List Row) :
    number first rows = if rows = [] ∨ first + rows.length < Word.count64
      then some (rows.mapIdx fun i row => (first + i, row)) else none := by
  induction rows generalizing first with
  | nil => rfl
  | cons row rows ih =>
    have hnumbers : (row :: rows).mapIdx (fun i row => (first + i, row)) =
        (first, row) :: rows.mapIdx fun i row => (first + 1 + i, row) := by
      simp only [List.mapIdx_cons, Nat.add_zero, Nat.add_assoc, Nat.add_comm 1]
    rw [number, Word.add?, List.length_cons, hnumbers]
    by_cases hnext : first + 1 < Word.count64
    · have hfits : (rows = [] ∨ first + 1 + rows.length < Word.count64) ↔
          (row :: rows = [] ∨ first + (rows.length + 1) < Word.count64) := by
        cases rows <;> grind
      rw [if_pos hnext, Option.bind_eq_bind, Option.bind_some, ih]
      simp only [hfits]
      split <;> rfl
    · rw [if_neg hnext, if_neg (by grind)]
      rfl

theorem number_of_lt {rows : List Row} (hfit : first + rows.length < Word.count64) :
    number first rows = some (rows.mapIdx fun i row => (first + i, row)) := by
  rw [number_eq, if_pos (.inr hfit)]

theorem rows_eq_ok_iff {raw : Bytes} {numbered : List (Nat × Row)} :
    p.rows raw first = some (.ok numbered) ↔ ∃ spelled, p.spell raw = .ok spelled ∧
      (spelled = [] ∨ first + spelled.length < Word.count64) ∧
      (spelled.mapIdx fun i row => (first + i, row)) = numbered := by
  unfold rows
  cases p.spell raw with
  | error e => simp
  | ok spelled => simp [number_eq, Option.bind_eq_some_iff, and_assoc]

theorem rows_eq_none_iff {raw : Bytes} :
    p.rows raw first = none ↔ ∃ spelled, p.spell raw = .ok spelled ∧ spelled ≠ [] ∧
      Word.count64 ≤ first + spelled.length := by
  unfold rows
  cases p.spell raw with
  | error e => simp
  | ok spelled => simp [number_eq]

theorem rows_encode_of_lt (valid : p.validate = .ok ()) {text : String}
    (hfit : first + (p.rowLines text.toList).length < Word.count64) :
    p.rows (Utf8.encode text) first =
      some (.ok (((p.rowLines text.toList).map p.tokenize).mapIdx fun i row => (first + i, row))) := by
  rw [rows_encode valid, number_of_lt (by rwa [List.length_map]), Option.map_some]

section Blank

variable (hdelim : p.rowDelimiter = String.singleton d) (hskip : p.skipBlank)
include hdelim hskip

/-- If blank lines are left out, an empty text needs no case of its own. -/
theorem rowLines_of_skipBlank (text : List Char) :
    p.rowLines text = ((Text.dropEnding [d] text).splitOn d).filter p.keeps := by
  have hblank : p.keeps [] = false := by simp [keeps, hskip, Text.trim]
  rw [rowLines, hdelim, String.toList_singleton]
  split
  · next h => rw [h, List.splitOn_nil, List.filter_singleton, hblank, cond_false]
  · rw [Text.splitOn_singleton]

theorem rowLines_append {a : List Char} (ha : a = [] ∨ ∃ line, a = line ++ [d]) (b : List Char) :
    p.rowLines (a ++ b) = p.rowLines a ++ p.rowLines b := by
  obtain rfl | ⟨line, rfl⟩ := ha
  · rw [rowLines_nil, List.nil_append, List.nil_append]
  by_cases hb : b = []
  · rw [hb, rowLines_nil, List.append_nil, List.append_nil]
  · rw [rowLines_of_skipBlank hdelim hskip, rowLines_of_skipBlank hdelim hskip,
      rowLines_of_skipBlank hdelim hskip, Text.dropEnding_append_left _ hb, Text.dropEnding_append,
      List.append_assoc, List.singleton_append, List.splitOn_append_cons_self, List.filter_append]

end Blank

/-- A text that is cut after a delimiter has the rows of its front, and then those of its back
numbered from where the front stops. -/
theorem rows_append (valid : p.validate = .ok ()) (hdelim : p.rowDelimiter = String.singleton d)
    (hskip : p.skipBlank) {a : String} (ha : a = "" ∨ ∃ text : String, a = text.push d)
    (b : String) (hfit : first + (p.rowLines (a ++ b).toList).length < Word.count64) :
    ∃ front back, p.rows (Utf8.encode a) first = some (.ok front) ∧
      p.rows (Utf8.encode b) (first + front.length) = some (.ok back) ∧
      p.rows (Utf8.encode a ++ Utf8.encode b) first = some (.ok (front ++ back)) := by
  have hcut : a.toList = [] ∨ ∃ line, a.toList = line ++ [d] := by
    obtain rfl | ⟨text, rfl⟩ := ha
    · exact .inl rfl
    · exact .inr ⟨text.toList, String.toList_push d⟩
  have hlines := rowLines_append hdelim hskip hcut b.toList
  rw [String.toList_append, hlines, List.length_append] at hfit
  refine ⟨_, _, rows_encode_of_lt valid (by omega), rows_encode_of_lt valid ?_, ?_⟩
  · rw [List.length_mapIdx, List.length_map]
    omega
  · rw [← Utf8.encode_append, rows_encode_of_lt valid
      (by rwa [String.toList_append, hlines, List.length_append]), String.toList_append, hlines,
      List.map_append, List.mapIdx_append, List.length_mapIdx]
    simp only [Nat.add_assoc, Nat.add_comm (List.length _)]

theorem rows_append_commas :
    commas.validate = .ok () ∧ ∃ front back,
      commas.rows (Utf8.encode "# log\n \nboot, 1\n") 7 = some (.ok front) ∧
      commas.rows (Utf8.encode "\nhalt, 2") (7 + front.length) = some (.ok back) ∧
      commas.rows (Utf8.encode "# log\n \nboot, 1\n" ++ Utf8.encode "\nhalt, 2") 7 =
        some (.ok (front ++ back)) :=
  ⟨rfl, rows_append (d := '\n') rfl rfl rfl (.inr ⟨"# log\n \nboot, 1", rfl⟩) "\nhalt, 2"
    (by decide)⟩

def verbatim (d : Char) : RowParsing := ⟨String.singleton d, none, none, false, false⟩

theorem flatMap_terminated {lines : List (List Char)} (h : lines ≠ []) :
    lines.flatMap (· ++ [d]) = [d].intercalate lines ++ [d] := by
  induction lines with
  | nil => contradiction
  | cons line lines ih =>
    cases lines with
    | nil => simp [List.intercalate]
    | cons next lines =>
      rw [List.flatMap_cons, ih (List.cons_ne_nil _ _), List.intercalate_cons_cons]
      simp only [List.append_assoc]

theorem rowLines_verbatim {lines : List (List Char)} (h : ∀ line ∈ lines, d ∉ line) :
    (verbatim d).rowLines (lines.flatMap (· ++ [d])) = if lines = [[]] then [] else lines := by
  cases lines with
  | nil => rw [List.flatMap_nil, rowLines_nil, ite_self]
  | cons line lines =>
    have hne := List.cons_ne_nil line lines
    have hsplit := List.splitOn_intercalate d h hne
    rw [rowLines, flatMap_terminated hne, verbatim, String.toList_singleton, Text.dropEnding_append]
    split
    · next hempty =>
      rw [hempty, List.splitOn_nil] at hsplit
      rw [if_pos hsplit.symm]
    · next hsome =>
      have hlines : line :: lines ≠ [[]] := fun h => hsome (by rw [h]; rfl)
      rw [if_neg hlines, Text.splitOn_singleton, hsplit]
      exact List.filter_eq_self.2 fun _ _ => rfl

/-- The text in which the delimiter follows each line has a row for each line in turn, unless it is
one empty line. -/
theorem rows_verbatim {lines : List String} (hlines : ∀ line ∈ lines, d ∉ line.toList)
    (hfit : first + lines.length < Word.count64) :
    (verbatim d).rows (lines.flatMap fun line => Utf8.encode (line.push d)) first =
      some (.ok (if lines = [""] then []
        else lines.mapIdx fun i line => (first + i, ⟨[.ofString line]⟩))) := by
  have htext : (lines.flatMap fun line => Utf8.encode (line.push d)) =
      Utf8.encode (String.ofList ((lines.map String.toList).flatMap (· ++ [d]))) := by
    simp only [Utf8.encode, String.toList_push, String.toList_ofList, List.flatMap_map,
      List.flatMap_assoc]
  have hchars : ∀ line ∈ lines.map String.toList, d ∉ line := by
    simpa using hlines
  have hblank : lines.map String.toList = [[]] ↔ lines = [""] := by
    simp [List.map_eq_singleton_iff, String.toList_eq_nil_iff]
  have hrow (line : String) : (verbatim d).tokenize line.toList = ⟨[.ofString line]⟩ := by
    simp [tokenize, token, verbatim]
  have valid : (verbatim d).validate = .ok () := by
    simp [validate, fault?, verbatim, ← String.toList_inj]
  rw [htext, rows_encode valid, String.toList_ofList, rowLines_verbatim hchars]
  simp only [hblank]
  split
  · rfl
  · rw [List.map_map, number_of_lt (by rwa [List.length_map]), Option.map_some]
    refine congrArg (some ∘ Except.ok) (List.ext_getElem (by simp) fun i hi _ => ?_)
    simp [hrow]

theorem rows_verbatim_blank :
    (∀ line ∈ ["", "boot", ""], '\n' ∉ line.toList) ∧ 7 + 3 < Word.count64 ∧
      (verbatim '\n').rows (["", "boot", ""].flatMap fun line => Utf8.encode (line.push '\n')) 7 =
        some (.ok [(7, ⟨[.ofString ""]⟩), (8, ⟨[.ofString "boot"]⟩), (9, ⟨[.ofString ""]⟩)]) := by
  have hlines : ∀ line ∈ ["", "boot", ""], '\n' ∉ line.toList := by decide
  have hfit : 7 + ["", "boot", ""].length < Word.count64 := by decide
  exact ⟨hlines, hfit, rows_verbatim hlines hfit⟩

theorem rows_loneBlank :
    (verbatim '\n').rows ([""].flatMap fun line => Utf8.encode (line.push '\n')) 1 =
        some (.ok []) ∧
      (verbatim '\n').rows (["", ""].flatMap fun line => Utf8.encode (line.push '\n')) 1 =
        some (.ok [(1, ⟨[.ofString ""]⟩), (2, ⟨[.ofString ""]⟩)]) := by
  constructor <;> rfl

end SkipChain.RowParsing
