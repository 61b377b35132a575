/-!
Cutting text into pieces, at every occurrence of a separator or at every character of a class.
There is one piece more than there are cuts.
-/
namespace SkipChain.Text

/-- Cut at the occurrences of `separator` that do not overlap, the first ones first. The first
`skip` characters belong to an occurrence already found. The first piece stands by itself. -/
def splitAux (separator : List Char) : (skip : Nat) → List Char → List Char × List (List Char)
  | _, [] => ([], [])
  | skip + 1, _ :: cs => splitAux separator skip cs
  | 0, c :: cs =>
    if separator.isPrefixOf (c :: cs) then
      let (piece, pieces) := splitAux separator (separator.length - 1) cs
      ([], piece :: pieces)
    else
      let (piece, pieces) := splitAux separator 0 cs
      (c :: piece, pieces)

/-- The pieces between the occurrences of a separator, which is not empty. -/
def splitOn (separator cs : List Char) : List (List Char) :=
  let (piece, pieces) := splitAux separator 0 cs
  piece :: pieces

/-- Cut at every character that `isCut` holds for. The first piece stands by itself. -/
def splitWhereAux (isCut : Char → Bool) : List Char → List Char × List (List Char)
  | [] => ([], [])
  | c :: cs =>
    let (piece, pieces) := splitWhereAux isCut cs
    if isCut c then ([], piece :: pieces) else (c :: piece, pieces)

def splitWhere (isCut : Char → Bool) (cs : List Char) : List (List Char) :=
  let (piece, pieces) := splitWhereAux isCut cs
  piece :: pieces

/-- `cs` without `ending` at its end, once, if it is there. -/
def dropEnding (ending cs : List Char) : List Char :=
  if ending.isSuffixOf cs then cs.take (cs.length - ending.length) else cs

variable {d : Char}

theorem splitOn_singleton (d : Char) (cs : List Char) : splitOn [d] cs = cs.splitOn d := by
  induction cs with
  | nil => rfl
  | cons c cs ih =>
    rw [List.splitOn_cons_eq_if_modifyHead, ← ih]
    by_cases h : c = d
    · simp [splitOn, splitAux, h]
    · simp [splitOn, splitAux, h, Ne.symm h]

theorem dropEnding_nil (ending : List Char) : dropEnding ending [] = [] := by
  rw [dropEnding, List.take_nil, ite_self]

@[simp] theorem dropEnding_append (ending cs : List Char) :
    dropEnding ending (cs ++ ending) = cs := by
  have h : ending.isSuffixOf (cs ++ ending) := List.isSuffixOf_iff_suffix.2 (List.suffix_append ..)
  rw [dropEnding, if_pos h, List.length_append, Nat.add_sub_cancel, List.take_left]

theorem dropEnding_concat (d c : Char) (cs : List Char) :
    dropEnding [d] (cs ++ [c]) = if c = d then cs else cs ++ [c] := by
  split
  · next h => rw [h, dropEnding_append]
  · next h =>
    have hnot : ¬[d].isSuffixOf (cs ++ [c]) := by
      simpa [List.isSuffixOf, List.isPrefixOf] using Ne.symm h
    rw [dropEnding, if_neg hnot]

theorem dropEnding_append_left (before : List Char) {cs : List Char} (h : cs ≠ []) :
    dropEnding [d] (before ++ cs) = before ++ dropEnding [d] cs := by
  obtain ⟨init, c, rfl⟩ := (List.eq_nil_or_concat cs).resolve_left h
  rw [List.concat_eq_append, ← List.append_assoc, dropEnding_concat, dropEnding_concat]
  split <;> simp

end SkipChain.Text
