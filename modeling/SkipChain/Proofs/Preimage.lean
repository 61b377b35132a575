import SkipChain.Ledger.Link
/-!
What hashed byte strings determine. Concatenated hash values determine the values, so only a
collision of the hash function lets two rows with different links share a hash.
-/
namespace SkipChain

def Hash.CollisionFree (H : Hash) (preimages : List Bytes) : Prop :=
  ∀ x ∈ preimages, ∀ y ∈ preimages, H x = H y → x = y

instance (H : Hash) (preimages : List Bytes) : Decidable (H.CollisionFree preimages) :=
  inferInstanceAs (Decidable (∀ x ∈ preimages, ∀ y ∈ preimages, H x = H y → x = y))

theorem Hash.CollisionFree.subset {H : Hash} {few all : List Bytes}
    (free : H.CollisionFree all) (h : few ⊆ all) : H.CollisionFree few :=
  fun x hx y hy => free x (h hx) y (h hy)

def Digest.filled (byte : UInt8) : Digest := ⟨List.replicate 32 byte, List.length_replicate⟩

theorem Digest.eq_of_bytes_eq {d e : Digest} (h : d.bytes = e.bytes) : d = e := by
  cases d
  cases e
  cases h
  rfl

theorem length_flatMap_bytes (ds : List Digest) :
    (ds.flatMap Digest.bytes).length = 32 * ds.length := by
  induction ds with
  | nil => rfl
  | cons d ds ih =>
    rw [List.flatMap_cons, List.length_append, ih, d.length_bytes, List.length_cons]
    omega

theorem flatMap_bytes_injective {ds es : List Digest}
    (h : ds.flatMap Digest.bytes = es.flatMap Digest.bytes) : ds = es := by
  have hlength := congrArg List.length h
  rw [length_flatMap_bytes, length_flatMap_bytes] at hlength
  induction ds generalizing es with
  | nil => exact (List.eq_nil_of_length_eq_zero (by rw [List.length_nil] at hlength; omega)).symm
  | cons d ds ih =>
    cases es with
    | nil => simp at hlength
    | cons e es =>
      rw [List.flatMap_cons, List.flatMap_cons] at h
      obtain ⟨hhead, htail⟩ := List.append_inj h (by rw [d.length_bytes, e.length_bytes])
      rw [List.length_cons, List.length_cons] at hlength
      rw [Digest.eq_of_bytes_eq hhead, ih htail (by omega)]

theorem linkPreimage_injective {input input' : Digest} {references references' : List Digest}
    (h : linkPreimage input references = linkPreimage input' references') :
    input = input' ∧ references = references' := by
  unfold linkPreimage at h
  obtain ⟨hinput, hreferences⟩ := List.append_inj h
    (by rw [input.length_bytes, input'.length_bytes])
  exact ⟨Digest.eq_of_bytes_eq hinput, flatMap_bytes_injective hreferences⟩

end SkipChain
