import SkipChain.Hash.Algorithm
import SkipChain.Proofs.Preimage
import SkipChain.Proofs.Wire.Reads
import SkipChain.Proofs.Wire.Utf8
import SkipChain.Table.Row
/-!
A row's hash commits to its cells. It determines the hash of each cell, and the hash of a cell
determines the cell once its type is known and whether it is salted: what is hashed has no mark of
the type, nor of where the value ends and the salt begins, but a salt has a fixed length.
-/
namespace SkipChain

theorem Bytes.eq_of_bigEndian_eq {n m : UInt64}
    (h : bigEndian 8 n.toNat = bigEndian 8 m.toNat) : n = m :=
  UInt64.toNat_inj.1 (bigEndian_injective n.toNat_lt m.toNat_lt h)

namespace Value

variable {v w : Value}

theorem int64Bytes_injective {n m : Int64} (h : int64Bytes n = int64Bytes m) : n = m :=
  congrArg Int64.ofUInt64 (Bytes.eq_of_bigEndian_eq h)

theorem hashInput_injective (htype : v.columnType = w.columnType) (h : v.hashInput = w.hashInput) :
    v = w := by
  cases v <;> cases w <;> try cases htype
  case null => rfl
  case hash d e => rw [Digest.eq_of_bytes_eq h]
  case bytes b c => exact congrArg bytes h
  case string s t =>
    have hread := congrArg Utf8.decode h
    simp only [hashInput, Utf8.decode_encode] at hread
    rw [Except.ok.inj hread]
  case long n m => rw [int64Bytes_injective h]
  case double a b => rw [Bytes.eq_of_bigEndian_eq h]
  case date n m => rw [int64Bytes_injective h]

end Value

namespace Salt

variable {s t : Option Salt}

theorem length_bytes_of_isSome_eq (h : s.isSome = t.isSome) :
    (s.elim [] Salt.bytes).length = (t.elim [] Salt.bytes).length := by
  match s, t with
  | none, none => rfl
  | some s, some t => exact s.length_bytes.trans t.length_bytes.symm

theorem eq_of_bytes_eq (hsome : s.isSome = t.isSome)
    (h : s.elim [] Salt.bytes = t.elim [] Salt.bytes) : s = t := by
  match s, t with
  | none, none => rfl
  | some ⟨_, _⟩, some ⟨_, _⟩ =>
    cases h
    rfl

end Salt

namespace Cell

variable {H : Hash} {c d : Cell}

/-- What the hash of a cell is taken over: value and salt. A hash is taken as it is. -/
def preimage? (c : Cell) : Option Bytes :=
  if c.columnType = .hash then none else some (c.value.hashInput ++ c.salt.elim [] Salt.bytes)

theorem preimage?_eq_some_iff {x : Bytes} :
    c.preimage? = some x ↔
      c.columnType ≠ .hash ∧ c.value.hashInput ++ c.salt.elim [] Salt.bytes = x := by
  rw [preimage?]
  split
  · next htype => exact ⟨nofun, fun h => absurd htype h.1⟩
  · next htype => rw [Option.some_inj, and_iff_right htype]

theorem hash_of_preimage? {x : Bytes} (h : c.preimage? = some x) : c.hash H = H x := by
  obtain ⟨htype, rfl⟩ := preimage?_eq_some_iff.1 h
  obtain ⟨value, salt, admitted⟩ := c
  cases value
  case hash => exact absurd rfl htype
  all_goals rfl

theorem eq_of_preimage?_eq (htype : c.columnType = d.columnType) (hsalted : c.isSalted = d.isSalted)
    {x : Bytes} (hc : c.preimage? = some x) (hd : d.preimage? = some x) : c = d := by
  obtain ⟨-, hc⟩ := preimage?_eq_some_iff.1 hc
  obtain ⟨-, hd⟩ := preimage?_eq_some_iff.1 hd
  obtain ⟨hvalue, hsalt⟩ := List.append_inj' (hc.trans hd.symm)
    (Salt.length_bytes_of_isSome_eq hsalted)
  have hvalue := Value.hashInput_injective htype hvalue
  have hsalt := Salt.eq_of_bytes_eq hsalted hsalt
  obtain ⟨value, salt, _⟩ := c
  obtain ⟨value', salt', _⟩ := d
  obtain rfl : value = value' := hvalue
  obtain rfl : salt = salt' := hsalt
  rfl

end Cell

namespace Row

variable {H : Hash} {a b : Row}

def preimages (H : Hash) (r : Row) : List Bytes :=
  (r.cells.flatMap fun c => (c.hash H).bytes) :: r.cells.filterMap Cell.preimage?

theorem mem_preimages {r : Row} {k : Nat} {c : Cell} {x : Bytes} (hc : r.cells[k]? = some c)
    (hx : c.preimage? = some x) : x ∈ r.preimages H :=
  List.mem_cons_of_mem _ (List.mem_filterMap.2 ⟨c, List.mem_of_getElem? hc, hx⟩)

theorem map_hash_of_hash_eq (free : H.CollisionFree (a.preimages H ++ b.preimages H))
    (hhash : a.hash H = b.hash H) : a.cells.map (Cell.hash H) = b.cells.map (Cell.hash H) := by
  have hsame := free _ (List.mem_append_left _ List.mem_cons_self) _
    (List.mem_append_right _ List.mem_cons_self) hhash
  apply flatMap_bytes_injective
  rw [List.flatMap_map, List.flatMap_map]
  exact hsame

/-- Rows with one hash have as many columns as each other, and in each column cells with one hash.
Where the cells have one type, other than that of hashes, and are both salted or both not, they are
the same. -/
theorem cells_of_hash_eq {H : Hash} {a b : Row}
    (free : H.CollisionFree (a.preimages H ++ b.preimages H)) (hhash : a.hash H = b.hash H) :
    a.size = b.size ∧ ∀ (k : Nat) c d, a.cells[k]? = some c → b.cells[k]? = some d →
      c.hash H = d.hash H ∧
        (c.columnType = d.columnType → c.columnType ≠ .hash → c.isSalted = d.isSalted → c = d) := by
  have hmap := map_hash_of_hash_eq free hhash
  refine ⟨?_, fun k c d hc hd => ?_⟩
  · simpa only [size, List.length_map] using congrArg List.length hmap
  · have hcell : c.hash H = d.hash H := by
      have hat := congrArg (·[k]?) hmap
      simpa only [List.getElem?_map, hc, hd, Option.map_some, Option.some_inj] using hat
    refine ⟨hcell, fun htype hopen hsalted => ?_⟩
    have hcx := Cell.preimage?_eq_some_iff.2 ⟨hopen, rfl⟩
    have hdy := Cell.preimage?_eq_some_iff.2 ⟨htype ▸ hopen, rfl⟩
    rw [Cell.hash_of_preimage? hcx, Cell.hash_of_preimage? hdy] at hcell
    have hxy := free _ (List.mem_append_left _ (mem_preimages hc hcx)) _
      (List.mem_append_right _ (mem_preimages hd hdy)) hcell
    exact Cell.eq_of_preimage?_eq htype hsalted hcx (hxy ▸ hdy)

def receipt : Row :=
  ⟨[⟨.string "two teas", some (.ofDigest .sentinel), rfl⟩,
    ⟨.long 7, some (.ofDigest .sentinel), rfl⟩]⟩

theorem cells_of_hash_eq_receipt :
    receipt.hash Algorithm.sha256.digest =
        (receipt.redact Algorithm.sha256.digest [0]).hash Algorithm.sha256.digest ∧
      receipt.size = (receipt.redact Algorithm.sha256.digest [0]).size ∧
      ∃ c d number, receipt.cells = [c, number] ∧
        (receipt.redact Algorithm.sha256.digest [0]).cells[0]? = some d ∧
        c.hash Algorithm.sha256.digest = d.hash Algorithm.sha256.digest ∧
        (receipt.redact Algorithm.sha256.digest [0]).cells[1]? = some number := by
  have free : Hash.CollisionFree Algorithm.sha256.digest
      (receipt.preimages Algorithm.sha256.digest ++
        (receipt.redact Algorithm.sha256.digest [0]).preimages Algorithm.sha256.digest) := by
    decide +kernel
  have hhash := (hash_redact Algorithm.sha256.digest [0] receipt).symm
  obtain ⟨hsize, hcells⟩ := cells_of_hash_eq free hhash
  obtain ⟨htext, -⟩ := hcells 0 _ _ rfl rfl
  obtain ⟨-, hnumber⟩ := hcells 1 _ _ rfl rfl
  refine ⟨hhash, hsize, _, _, _, rfl, rfl, htext, ?_⟩
  rw [hnumber rfl (by decide) rfl]
  rfl

end Row

end SkipChain
