import SkipChain.Proofs.Ledger.Commitment
import SkipChain.Proofs.Ledger.Forwarding
import SkipChain.Proofs.Outcome
import SkipChain.Proofs.Skip
/-!
A ledger is a function of its inputs. Whatever is appended and cut off, the rows are those that come
of appending the inputs that are left to an empty ledger.
-/
namespace SkipChain

open LedgerStore (after)

namespace Ledger

variable {l l' : Ledger} {algorithm : Algorithm} {input : Digest} {inputs : List Digest} {n : Nat}

@[simp] theorem length_inputs (l : Ledger) : l.inputs.length = l.size := by
  rw [Ledger.inputs, List.length_map, Array.length_toList, size]

@[simp] theorem inputs_append (l : Ledger) (input : Digest) :
    (l.append input).inputs = l.inputs ++ [input] := by
  simp [Ledger.inputs, append]

@[simp] theorem inputs_appendAll (l : Ledger) (inputs : List Digest) :
    (l.appendAll inputs).inputs = l.inputs ++ inputs := by
  induction inputs generalizing l with
  | nil => exact (List.append_nil _).symm
  | cons input inputs ih =>
    have hrest : ((l.append input).appendAll inputs).inputs = (l.append input).inputs ++ inputs :=
      ih _
    rwa [inputs_append, List.append_assoc] at hrest

@[simp] theorem inputs_ofInputs (algorithm : Algorithm) (inputs : List Digest) :
    (ofInputs algorithm inputs).inputs = inputs := inputs_appendAll _ _

@[simp] theorem size_ofInputs (algorithm : Algorithm) (inputs : List Digest) :
    (ofInputs algorithm inputs).size = inputs.length := by
  rw [← length_inputs, inputs_ofInputs]

theorem inputs_trim (h : l.trim n = .ok l') : l'.inputs = l.inputs.take n := by
  obtain ⟨-, rfl⟩ := trim_eq_ok_iff.1 h
  simp [Ledger.inputs]

@[simp] theorem algorithm_appendAll (l : Ledger) (inputs : List Digest) :
    (l.appendAll inputs).algorithm = l.algorithm := by
  induction inputs generalizing l with
  | nil => rfl
  | cons input inputs ih => exact ih (l.append input)

@[simp] theorem algorithm_ofInputs (algorithm : Algorithm) (inputs : List Digest) :
    (ofInputs algorithm inputs).algorithm = algorithm := algorithm_appendAll _ _

theorem ofInputs_append (algorithm : Algorithm) (before inputs : List Digest) :
    ofInputs algorithm (before ++ inputs) = (ofInputs algorithm before).appendAll inputs :=
  List.foldl_append

theorem Linked.appendAll (linked : l.Linked) (inputs : List Digest) : (l.appendAll inputs).Linked := by
  induction inputs generalizing l with
  | nil => exact linked
  | cons input inputs ih => exact ih (linked.append input)

theorem linked_ofInputs (algorithm : Algorithm) (inputs : List Digest) :
    (ofInputs algorithm inputs).Linked := (linked_new algorithm).appendAll inputs

theorem eq_of_row? (halgorithm : l.algorithm = l'.algorithm) (hrows : ∀ n, l.row? n = l'.row? n) :
    l = l' := by
  obtain ⟨algorithm, rows⟩ := l
  obtain ⟨algorithm', rows'⟩ := l'
  obtain rfl : algorithm = algorithm' := halgorithm
  suffices rows = rows' by rw [this]
  apply Array.ext_getElem?
  intro i
  simpa [row?] using hrows (i + 1)

theorem row?_eq_none (h : l.size < n) : l.row? n = none := by
  cases hrow : l.row? n with
  | none => rfl
  | some r =>
    have hn := exists_row?_iff.1 ⟨r, hrow⟩
    omega

theorem Linked.eq_of_inputs_eq (linked : l.Linked) (linked' : l'.Linked)
    (halgorithm : l.algorithm = l'.algorithm) (hinputs : l.inputs = l'.inputs) : l = l' := by
  have hsize : l.size = l'.size := by rw [← length_inputs, hinputs, length_inputs]
  apply eq_of_row? halgorithm
  intro n
  rcases Nat.lt_or_ge l.size n with hn | hn
  · rw [row?_eq_none hn, row?_eq_none (hsize ▸ hn)]
  · exact linked.rows_eq_of_inputs_eq linked' halgorithm hn (hsize ▸ hn) (by rw [hinputs]) n
      (Nat.le_refl n)

theorem Linked.eq_ofInputs (linked : l.Linked) : l = ofInputs l.algorithm l.inputs :=
  linked.eq_of_inputs_eq (linked_ofInputs _ _) (algorithm_ofInputs _ _).symm
    (inputs_ofInputs _ _).symm

theorem trim_ofInputs (algorithm : Algorithm) (h : n ≤ inputs.length) :
    (ofInputs algorithm inputs).trim n = .ok (ofInputs algorithm (inputs.take n)) := by
  obtain ⟨l, hl⟩ : ∃ l, (ofInputs algorithm inputs).trim n = .ok l :=
    ⟨_, trim_eq_ok_iff.2 ⟨by rwa [size_ofInputs], rfl⟩⟩
  have halgorithm : l.algorithm = algorithm := by
    rw [(trim_eq_ok_iff.1 hl).2]
    exact algorithm_ofInputs _ _
  have hlinked := ((linked_ofInputs algorithm inputs).trim hl).eq_ofInputs
  rw [halgorithm, inputs_trim hl, inputs_ofInputs] at hlinked
  rw [hl, ← hlinked]

end Ledger

namespace LedgerOperation

def onInputs (inputs : List Digest) : LedgerOperation → Except LedgerError Answer × List Digest
  | append input => (.ok (.row (inputs.length + 1)), inputs ++ [input])
  | appendAll more => (.ok (.size (inputs.length + more.length)), inputs ++ more)
  | trim n =>
    if inputs.length < n then (.error (.trimBeyondSize n inputs.length), inputs)
    else (.ok .trimmed, inputs.take n)

theorem perform_ofInputs (algorithm : Algorithm) (inputs : List Digest) (op : LedgerOperation) :
    op.perform (Ledger.ofInputs algorithm inputs) =
      ((op.onInputs inputs).1, Ledger.ofInputs algorithm (op.onInputs inputs).2) := by
  cases op with
  | append input =>
    have happended : Ledger.ofInputs algorithm (inputs ++ [input]) =
        (Ledger.ofInputs algorithm inputs).append input := Ledger.ofInputs_append _ _ _
    simp [perform, onInputs, LedgerStore.append, happended]
  | appendAll more =>
    have hsize : ((Ledger.ofInputs algorithm inputs).appendAll more).size =
        inputs.length + more.length := by
      rw [← Ledger.ofInputs_append, Ledger.size_ofInputs, List.length_append]
    simp [perform, onInputs, LedgerStore.appendAll, Ledger.ofInputs_append, hsize]
  | trim n =>
    by_cases hn : inputs.length < n
    · have hrefused : (Ledger.ofInputs algorithm inputs).trim n =
          .error (.trimBeyondSize n inputs.length) := by
        rw [Ledger.trim, Ledger.size_ofInputs, if_pos hn]
      simp [perform, onInputs, LedgerStore.trim, hn, hrefused]
    · have hcut := Ledger.trim_ofInputs algorithm (Nat.not_lt.1 hn)
      simp [perform, onInputs, LedgerStore.trim, hn, hcut]

end LedgerOperation

namespace Ledger

variable {l : Ledger} {algorithm : Algorithm} {n : Nat}

theorem after_ofInputs (algorithm : Algorithm) (inputs : List Digest) (ops : List LedgerOperation) :
    after (ofInputs algorithm inputs) ops =
      ofInputs algorithm (ops.foldl (fun inputs op => (op.onInputs inputs).2) inputs) := by
  induction ops generalizing inputs with
  | nil => rfl
  | cons op ops ih =>
    have hstep := congrArg Prod.snd (op.perform_ofInputs algorithm inputs)
    have hrest : after (op.perform (ofInputs algorithm inputs)).2 ops = _ :=
      (congrArg (after · ops) hstep).trans (ih _)
    exact hrest

theorem mapM_rowHash {ns : List Nat} (h : ∀ n ∈ ns, n ≤ l.size) :
    ns.mapM l.rowHash = .ok (ns.map l.hashBelow) := by
  induction ns with
  | nil => rfl
  | cons n ns ih =>
    rw [List.mapM_cons, rowHash_eq_hashBelow (h n List.mem_cons_self),
      ih fun k hk => h k (List.mem_cons_of_mem n hk)]
    rfl

/-- The rows of a ledger are those that its inputs give, each of them by the inputs up to it, and
operations go by the inputs. -/
structure GivenByInputs (algorithm : Algorithm) (l : Ledger) : Prop where
  rebuilt : l = ofInputs algorithm l.inputs
  sentinel : l.rowHash 0 = .ok .sentinel
  row : ∀ n, 1 ≤ n → n ≤ l.size → ∃ input links,
    l.inputs[n - 1]? = some input ∧ l.inputHash n = .ok input ∧
      ((List.range (padicValNat 2 n + 1)).map (n - 2 ^ ·)).mapM l.rowHash = .ok links ∧
      l.rowHash n = .ok (algorithm.digest.link input links)
  upTo : ∀ n ≤ l.size, l.rowHash n = .ok (ofInputs algorithm (l.inputs.take n)).state
  next : ∃ links, (Skip.references (l.size + 1)).mapM l.rowHash = .ok links ∧
    ∀ input, l.nextHash input = algorithm.digest.link input links
  append : ∀ input, (LedgerOperation.append input).perform l =
    (.ok (.row (l.size + 1)), ofInputs algorithm (l.inputs ++ [input]))
  appendAll : ∀ inputs, (LedgerOperation.appendAll inputs).perform l =
    (.ok (.size (after l (inputs.map .append)).size), after l (inputs.map .append))
  trim : ∀ n, (LedgerOperation.trim n).perform l =
    if l.size < n then (.error (.trimBeyondSize n l.size), l)
    else (.ok .trimmed, ofInputs algorithm (l.inputs.take n))

theorem after_append (l : Ledger) (inputs : List Digest) :
    after l (inputs.map .append) = l.appendAll inputs := by
  rw [after, List.foldl_map]
  rfl

theorem Linked.rowHash_eq (linked : l.Linked) (hpos : 1 ≤ n) (hsize : n ≤ l.size) :
    ∃ input links, l.inputs[n - 1]? = some input ∧ l.inputHash n = .ok input ∧
      ((List.range (padicValNat 2 n + 1)).map (n - 2 ^ ·)).mapM l.rowHash = .ok links ∧
      l.rowHash n = .ok (l.algorithm.digest.link input links) := by
  obtain ⟨r, hr⟩ := exists_row?_iff.2 ⟨hpos, hsize⟩
  have hinput : l.inputs[n - 1]? = some r.input := by
    rw [getElem?_inputs, Nat.sub_add_cancel hpos, hr]
    rfl
  have hlinks : (Skip.references n).mapM l.rowHash = .ok ((Skip.references n).map l.hashBelow) :=
    mapM_rowHash fun k hk => Nat.le_trans (Nat.le_of_lt (Skip.lt_of_mem_references hk)) hsize
  refine ⟨r.input, (Skip.references n).map l.hashBelow, hinput, inputHash_of_row? hr, ?_, ?_⟩
  · rwa [← Skip.references_eq (Nat.one_le_iff_ne_zero.1 hpos)]
  · rw [rowHash_of_row? hr, linked n r hr]

theorem Linked.rowHash_upTo (linked : l.Linked) (hsize : n ≤ l.size) :
    l.rowHash n = .ok (ofInputs l.algorithm (l.inputs.take n)).state := by
  have hcut : (ofInputs l.algorithm l.inputs).trim n = .ok (ofInputs l.algorithm (l.inputs.take n)) :=
    trim_ofInputs _ (by rwa [length_inputs])
  have hkept : (ofInputs l.algorithm (l.inputs.take n)).size = n := by
    rw [size_ofInputs, List.length_take, length_inputs, Nat.min_eq_left hsize]
  rw [← linked.eq_ofInputs] at hcut
  rw [state, hkept, hashBelow_trim hcut (Nat.le_refl n), rowHash_eq_hashBelow hsize]

theorem givenByInputs_ofInputs (algorithm : Algorithm) (inputs : List Digest) :
    (ofInputs algorithm inputs).GivenByInputs algorithm := by
  have linked := linked_ofInputs algorithm inputs
  have hlinks : (Skip.references ((ofInputs algorithm inputs).size + 1)).mapM
      (ofInputs algorithm inputs).rowHash = .ok _ :=
    mapM_rowHash fun k hk => Nat.lt_succ_iff.1 (Skip.lt_of_mem_references hk)
  refine ⟨?_, rfl, fun n hpos hsize => ?_, fun n hsize => ?_, ⟨_, hlinks, fun input => ?_⟩,
    fun input => ?_, fun more => ?_, fun n => ?_⟩
  · rw [inputs_ofInputs]
  · simpa using linked.rowHash_eq hpos hsize
  · simpa using linked.rowHash_upTo hsize
  · rw [nextHash, algorithm_ofInputs]
  · simp [LedgerOperation.perform_ofInputs, LedgerOperation.onInputs]
  · rw [after_append, LedgerOperation.perform_ofInputs, ← ofInputs_append, size_ofInputs]
    simp [LedgerOperation.onInputs]
  · rw [LedgerOperation.perform_ofInputs, LedgerOperation.onInputs, size_ofInputs, inputs_ofInputs]
    split <;> rfl

/-- Whatever run starts from the ledger of some inputs, or of none, the ledger it leaves is given by
its own inputs. In front of a ledger that is only appended to, or only row by row, the same run goes
as if its trims were left out, and these are refused. -/
theorem after_givenByInputs (algorithm : Algorithm) (start : List Digest)
    (ops : List LedgerOperation) :
    (after (ofInputs algorithm start) ops).GivenByInputs algorithm ∧
      RunsUntrimmed AppendOnly.inner ⟨ofInputs algorithm start⟩ ops ∧
      RunsUntrimmed OneByOne.inner ⟨ofInputs algorithm start⟩ ops := by
  refine ⟨?_, forwards_appendOnly.runsUntrimmed _ ops, forwards_oneByOne.runsUntrimmed _ ops⟩
  rw [after_ofInputs]
  exact givenByInputs_ofInputs algorithm _

end Ledger

end SkipChain
