import SkipChain.Proofs.Outcome
import SkipChain.Proofs.Wire.Varint
/-!
Reads whose success is told by the bytes that they take: what is read in one place is read alike in
any other, whatever follows.
-/
namespace SkipChain

namespace Decoder

variable {ε α β : Type} {read : Decoder ε α} {next : α → Decoder ε β} {limit : Nat}

def Local (read : Decoder ε α) : Prop :=
  ∀ c a c', read c = .ok a c' →
    ∃ bytes, c.rest = bytes ++ c'.rest ∧ ∀ rest, Reads read bytes rest a

theorem Local.pure (a : α) : Local (pure a : Decoder ε α) := by
  intro c a' c' hread
  cases hread
  exact ⟨[], rfl, fun _ => .pure a⟩

theorem Local.bind (h : Local read) (hnext : ∀ a, Local (next a)) : Local (read >>= next) := by
  intro c b c'' hread
  simp only [Bind.bind, EStateM.bind] at hread
  cases hfirst : read c with
  | error e c' => simp [hfirst] at hread
  | ok a c' =>
    rw [hfirst] at hread
    obtain ⟨bytes, hbytes, ha⟩ := h c a c' hfirst
    obtain ⟨more, hmore, hb⟩ := hnext a c' b c'' hread
    refine ⟨bytes ++ more, by rw [hbytes, hmore, List.append_assoc], fun rest => ?_⟩
    exact (ha _).bind (hb rest)

theorem local_byte : Local byte := by
  intro c b c' hread
  unfold byte at hread
  split at hread
  · cases hread
  · next hrest =>
    cases hread
    exact ⟨[b], hrest, fun _ => reads_byte b⟩

theorem local_take (n : Nat) : Local (take n) := by
  intro c bytes c' hread
  unfold take at hread
  dsimp only at hread
  split at hread
  · cases hread
  · next hlong =>
    cases hread
    rw [List.length_take] at hlong
    have hlength : (c.rest.take n).length = n := by
      rw [List.length_take]
      omega
    refine ⟨c.rest.take n, (List.take_append_drop _ _).symm, fun rest => ?_⟩
    have hread : Reads (take (c.rest.take n).length) (c.rest.take n) rest _ := reads_take _
    rwa [hlength] at hread

theorem local_digest : Local digest := by
  intro c d c' hread
  unfold digest at hread
  split at hread
  · next hlong =>
    cases hread
    refine ⟨c.rest.take 32, (List.take_append_drop 32 c.rest).symm, fun rest => ?_⟩
    exact reads_digest ⟨c.rest.take 32, hlong⟩
  · cases hread

theorem local_varint : Local varint := by
  intro c value c' hread
  obtain ⟨bytes, hbytes, htaken, -, rfl⟩ := varint_eq_ok_iff.1 hread
  exact ⟨bytes, htaken, fun _ => reads_varint_leb128 hbytes⟩

theorem count_eq_ok_iff {c c' : Cursor} {n : Nat} :
    count limit c = .ok n c' ↔ varint c = .ok n c' ∧ n ≤ limit := by
  rw [count, run_bind_ok (show offset c = .ok c.offset c from rfl), run_bind_eq_ok]
  constructor
  · rintro ⟨m, t, hvarint, hlimit⟩
    dsimp only at hlimit
    split at hlimit
    · cases hlimit
    · next hle =>
      cases hlimit
      exact ⟨hvarint, Nat.not_lt.1 hle⟩
  · rintro ⟨hvarint, hlimit⟩
    exact ⟨n, c', hvarint, by rw [if_neg (Nat.not_lt.2 hlimit)]; rfl⟩

theorem local_count (limit : Nat) : Local (count limit) := by
  intro c n c' hread
  obtain ⟨hvarint, hlimit⟩ := count_eq_ok_iff.1 hread
  obtain ⟨bytes, hbytes, hreads⟩ := local_varint c n c' hvarint
  exact ⟨bytes, hbytes, fun rest offset => count_eq_ok_iff.2 ⟨hreads rest offset, hlimit⟩⟩

end Decoder

end SkipChain
