import SkipChain.Hash.Algorithm
import SkipChain.Table.Row
/-!
Redaction. A redacted row commits to what the row committed to, and of its cells only the listed
ones are replaced, each by its hash. A hash is its own hash, so it makes no difference how often a
column is redacted, nor in which order columns are.
-/
namespace SkipChain

@[simp] theorem Cell.redact_redact (H : Hash) (c : Cell) : (c.redact H).redact H = c.redact H := rfl

namespace Row

variable {H : Hash} {columns others all : List Nat} {r : Row}

@[simp] theorem getElem?_redact (k : Nat) : (r.redact H columns).cells[k]? =
    r.cells[k]?.map fun c => if k ∈ columns then c.redact H else c := by
  rw [redact, List.getElem?_mapIdx]
  simp only [List.contains_iff_mem]

@[simp] theorem length_redact : (r.redact H columns).cells.length = r.size := List.length_mapIdx

theorem ext_getElem? {r r' : Row} (h : ∀ k : Nat, r.cells[k]? = r'.cells[k]?) :
    r = r' :=
  congrArg Row.mk (List.ext_getElem? h)

theorem redact_redact (hall : ∀ k, k ∈ all ↔ k ∈ columns ∨ k ∈ others) :
    (r.redact H columns).redact H others = r.redact H all := by
  apply ext_getElem?
  intro k
  simp only [getElem?_redact, Option.map_map, hall]
  congr 1
  funext c
  by_cases hfirst : k ∈ columns <;> by_cases hthen : k ∈ others <;> simp [hfirst, hthen]

theorem redact_self : (r.redact H columns).redact H columns = r.redact H columns :=
  redact_redact fun _ => (or_self_iff).symm

/-- A redacted row has the columns and the hash of the row. In the listed columns that the row has
stand unsalted hashes of its cells, in all others its cells. Redacting the columns once more changes
nothing, and redacting others after them, or before them, is redacting all in any order. -/
theorem redact_preserves (H : Hash) (columns : List Nat) (r : Row) :
    (r.redact H columns).size = r.size ∧ (r.redact H columns).hash H = r.hash H ∧
      (∀ k c, r.cells[k]? = some c →
        (k ∈ columns → ∃ shown, (r.redact H columns).cells[k]? = some shown ∧
          shown.value = .hash (c.hash H) ∧ shown.salt = none) ∧
        (k ∉ columns → (r.redact H columns).cells[k]? = some c)) ∧
      (r.redact H columns).redact H columns = r.redact H columns ∧
      ∀ others all, (∀ k, k ∈ all ↔ k ∈ columns ∨ k ∈ others) →
        (r.redact H columns).redact H others = r.redact H all ∧
          (r.redact H others).redact H columns = r.redact H all := by
  refine ⟨length_redact, hash_redact H columns r, fun k c hc => ⟨fun hk => ?_, fun hk => ?_⟩,
    redact_self, fun others all hall => ⟨redact_redact hall, redact_redact fun k => ?_⟩⟩
  · refine ⟨c.redact H, ?_, rfl, rfl⟩
    rw [getElem?_redact, hc, Option.map_some, if_pos hk]
  · rw [getElem?_redact, hc, Option.map_some, if_neg hk]
  · rw [hall, or_comm]

def invoice : Row :=
  ⟨[⟨.string "Ada", some (.ofDigest .sentinel), rfl⟩, ⟨.long 12, none, rfl⟩, .ofDigest .sentinel]⟩

theorem redact_preserves_invoice :
    (invoice.redact Algorithm.sha256.digest [2, 0, 7, 0]).hash Algorithm.sha256.digest =
        invoice.hash Algorithm.sha256.digest ∧
      (∃ shown, (invoice.redact Algorithm.sha256.digest [2, 0, 7, 0]).cells[0]? = some shown ∧
        shown.salt = none) ∧
      (invoice.redact Algorithm.sha256.digest [2, 0, 7, 0]).cells[1]? = some ⟨.long 12, none, rfl⟩ ∧
      (invoice.redact Algorithm.sha256.digest [2, 0, 7, 0]).redact Algorithm.sha256.digest [1, 0] =
        invoice.redact Algorithm.sha256.digest [0, 1, 2, 7] := by
  obtain ⟨-, hhash, hcells, -, hmerge⟩ :=
    redact_preserves Algorithm.sha256.digest [2, 0, 7, 0] invoice
  obtain ⟨hhidden, -⟩ := hcells 0 _ rfl
  obtain ⟨-, hkept⟩ := hcells 1 _ rfl
  obtain ⟨shown, hshown, -, hsalt⟩ := hhidden (by decide)
  refine ⟨hhash, ⟨shown, hshown, hsalt⟩, hkept (by decide), (hmerge _ _ fun k => ?_).1⟩
  simp only [List.mem_cons, List.not_mem_nil, or_false]
  omega

end Row

end SkipChain
