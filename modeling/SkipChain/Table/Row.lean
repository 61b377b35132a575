import SkipChain.Table.Cell
/-!
Rows of cells. The order of the columns is part of what a row's hash commits to.
-/
namespace SkipChain

structure Row where
  cells : List Cell
  deriving DecidableEq

namespace Row

def size (r : Row) : Nat := r.cells.length

def schema (r : Row) : List ColumnType := r.cells.map Cell.columnType

def encode (r : Row) : Bytes := Wire.varint r.size ++ r.cells.flatMap Cell.encode

def decode (limit : Nat) : Decoder ValueError Row := do
  return ⟨← Decoder.replicate Cell.decode (← Decoder.count limit)⟩

def hash (H : Hash) (r : Row) : Digest := H (r.cells.flatMap fun c => (c.hash H).bytes)

def redact (H : Hash) (columns : List Nat) (r : Row) : Row :=
  ⟨r.cells.mapIdx fun i c => if columns.contains i then c.redact H else c⟩

@[simp] theorem hash_redact (H : Hash) (columns : List Nat) (r : Row) :
    (r.redact H columns).hash H = r.hash H := by
  have hcells : (r.redact H columns).cells.map (fun c => (c.hash H).bytes) =
      r.cells.map fun c => (c.hash H).bytes := by
    apply List.ext_getElem (by simp [redact])
    intro i hi hi'
    simp only [redact, List.getElem_map, List.getElem_mapIdx]
    split <;> simp
  rw [hash, hash, List.flatMap_def, List.flatMap_def, hcells]

end Row

end SkipChain
