import SkipChain.Proofs.Wire.Reads
/-!
What a read that succeeds says of its value and of the number of bytes it has taken: above all that
the value's own encoding would not take more of them.
-/
namespace SkipChain

theorem Wire.length_varintWithin_le {m n : Nat} (h : m ≤ n) {less more : Nat} (hless : m ≤ less)
    (hmore : n ≤ more) : (varintWithin less m).length ≤ (varintWithin more n).length := by
  induction less generalizing m n more with
  | zero =>
    cases more with
    | zero => simp [varintWithin]
    | succ more =>
      rw [varintWithin, varintWithin]
      split <;> simp
  | succ less ih =>
    cases more with
    | zero =>
      obtain rfl : m = 0 := by omega
      simp [varintWithin]
    | succ more =>
      rw [varintWithin, varintWithin]
      split
      · split <;> simp
      · rw [if_neg (by omega), List.length_cons, List.length_cons]
        exact Nat.succ_le_succ (ih (by omega) (by omega) (by omega))

theorem Wire.length_block_le {short long : Bytes} (h : short.length ≤ long.length) :
    (block short).length ≤ (block long).length := by
  have hprefix : (varint short.length).length ≤ (varint long.length).length :=
    length_varintWithin_le h (Nat.le_refl _) (Nat.le_refl _)
  rw [block, block, List.length_append, List.length_append]
  omega

namespace Decoder

variable {ε δ α β : Type} {read : Decoder ε α} {next : α → Decoder ε β} {P Q : Nat → α → Prop}
  {R : Nat → β → Prop} {limit n : Nat}

/-- Wherever `read` succeeds, it has taken some number of bytes, and `P` holds of that number and of
the value. -/
def Yields (read : Decoder ε α) (P : Nat → α → Prop) : Prop :=
  ∀ c a c', read c = .ok a c' → ∃ n, c.rest.length = n + c'.rest.length ∧ P n a

theorem Yields.mono (h : Yields read P) (himp : ∀ n a, P n a → Q n a) : Yields read Q := by
  intro c a c' hread
  obtain ⟨n, hn, ha⟩ := h c a c' hread
  exact ⟨n, hn, himp n a ha⟩

theorem Yields.pure {a : α} (h : P 0 a) : Yields (pure a : Decoder ε α) P := by
  intro c a' c' hread
  cases hread
  exact ⟨0, (Nat.zero_add _).symm, h⟩

theorem Yields.throw (e : ε) : Yields (throw e : Decoder ε α) P := by
  intro c a c' hread
  cases hread

theorem Yields.bind (h : Yields read P)
    (hnext : ∀ n a, P n a → Yields (next a) fun k b => R (n + k) b) :
    Yields (read >>= next) R := by
  intro c b c'' hread
  simp only [Bind.bind, EStateM.bind] at hread
  cases hfirst : read c with
  | error e c' => simp [hfirst] at hread
  | ok a c' =>
    rw [hfirst] at hread
    obtain ⟨n, hn, ha⟩ := h c a c' hfirst
    obtain ⟨k, hk, hb⟩ := hnext n a ha c' b c'' hread
    exact ⟨n + k, by omega, hb⟩

theorem Yields.throw_bind (e : ε) : Yields ((MonadExcept.throw e : Decoder ε α) >>= next) R := by
  intro c b c' hread
  cases hread

theorem Yields.bind_pure {f : α → β} (h : Yields read fun n a => R n (f a)) :
    Yields (read >>= fun a => Pure.pure (f a)) R :=
  h.bind fun _ _ ha => .pure ha

theorem Yields.map {f : α → β} (h : Yields read fun n a => R n (f a)) : Yields (f <$> read) R := by
  intro c b c' hread
  simp only [Functor.map, EStateM.map] at hread
  cases hfirst : read c with
  | error e c' => simp [hfirst] at hread
  | ok a c' =>
    rw [hfirst] at hread
    cases hread
    exact h c a c' hfirst

theorem Yields.mapError {f : ε → δ} (h : Yields read P) : Yields (mapError f read) P := by
  intro c a c' hread
  unfold Decoder.mapError at hread
  cases hfirst : read c with
  | error e c' => simp [hfirst] at hread
  | ok a c' =>
    rw [hfirst] at hread
    cases hread
    exact h c a c' hfirst

theorem Yields.ite {p : Prop} [Decidable p] {yes no : Decoder ε α} (hyes : p → Yields yes P)
    (hno : ¬p → Yields no P) : Yields (if p then yes else no) P := by
  split
  · next h => exact hyes h
  · next h => exact hno h

theorem Yields.guard {p : Prop} [Decidable p] {e : ε} {next : PUnit → Decoder ε β}
    (h : ¬p → Yields (next ⟨⟩) R) :
    Yields (if p then MonadExcept.throw e >>= next else next ⟨⟩) R :=
  .ite (fun _ => .throw_bind e) h

theorem yields_offset : Yields (offset : Decoder ε Nat) fun n _ => n = 0 := by
  intro c a c' hread
  cases hread
  exact ⟨0, (Nat.zero_add _).symm, rfl⟩

theorem yields_remaining : Yields (remaining : Decoder ε Nat) fun n _ => n = 0 := by
  intro c a c' hread
  cases hread
  exact ⟨0, (Nat.zero_add _).symm, rfl⟩

theorem yields_byte : Yields byte fun n _ => n = 1 := by
  intro c b c' hread
  unfold byte at hread
  split at hread
  · cases hread
  · next hrest =>
    cases hread
    exact ⟨1, by rw [hrest, List.length_cons, Nat.add_comm], rfl⟩

theorem yields_take (k : Nat) : Yields (take k) fun n bytes => bytes.length = n ∧ n = k := by
  intro c bytes c' hread
  unfold take at hread
  dsimp only at hread
  split at hread
  · cases hread
  · next hlong =>
    cases hread
    rw [List.length_take] at hlong
    exact ⟨k, by rw [List.length_drop]; omega, by rw [List.length_take]; omega, rfl⟩

theorem yields_takeRest : Yields (takeRest : Decoder ε Bytes) fun n bytes => bytes.length = n := by
  intro c bytes c' hread
  cases hread
  exact ⟨c.rest.length, rfl, rfl⟩

theorem yields_digest : Yields digest fun n _ => n = 32 := by
  intro c d c' hread
  unfold digest at hread
  split at hread
  · next hlong =>
    cases hread
    rw [List.length_take] at hlong
    exact ⟨32, by rw [List.length_drop]; omega, rfl⟩
  · cases hread

theorem yields_bigEndian (width : Nat) : Yields (bigEndian width) fun n _ => n = width :=
  .bind_pure (R := fun n _ => n = width) ((yields_take width).mono fun _ _ h => h.2)

theorem yields_word64 : Yields word64 fun n _ => n = 8 :=
  .bind_pure (R := fun n _ => n = 8) (yields_bigEndian 8)

theorem yields_int64 : Yields int64 fun n _ => n = 8 :=
  .bind_pure (R := fun n _ => n = 8) yields_word64

theorem varintFrom_eq_ok {start left place low value : Nat} {c c' : Cursor}
    (h : varintFrom start (left + 1) place low c = .ok value c') :
    ∃ b rest, c.rest = b :: rest ∧ (left = 0 → b.toNat ≤ 1) ∧
      ((b.toNat < 128 ∧ value = low + b.toNat * place ∧ c'.rest = rest) ∨
        (128 ≤ b.toNat ∧ varintFrom start left (128 * place) (low + b.toNat % 128 * place)
          ⟨c.offset + 1, rest⟩ = .ok value c')) := by
  rw [varintFrom] at h
  split at h
  · cases h
  · next b rest hrest =>
    dsimp only at h
    split at h
    · cases h
    · next hlast =>
      refine ⟨b, rest, hrest, fun hleft => by omega, ?_⟩
      split at h
      · next hsmall =>
        cases h
        exact .inl ⟨hsmall, by rw [Nat.mod_eq_of_lt hsmall], rfl⟩
      · next hbig => exact .inr ⟨by omega, h⟩

theorem yields_varintFrom (start left place low : Nat) :
    Yields (varintFrom start (left + 1) place low) fun n value =>
      ∃ v, value = low + v * place ∧ v < 2 * 128 ^ left ∧
        ∀ fuel, v ≤ fuel → (Wire.varintWithin fuel v).length ≤ n := by
  intro c value c' hread
  induction left generalizing place low c with
  | zero =>
    obtain ⟨b, rest, hrest, hlast, ⟨hsmall, hvalue, hstop⟩ | ⟨hbig, -⟩⟩ := varintFrom_eq_ok hread
    · refine ⟨1, by rw [hrest, hstop, List.length_cons, Nat.add_comm], b.toNat, hvalue, ?_, ?_⟩
      · have := hlast rfl
        omega
      · intro fuel _
        cases fuel <;> simp [Wire.varintWithin, hsmall]
    · have := hlast rfl
      omega
  | succ left ih =>
    obtain ⟨b, rest, hrest, -, ⟨hsmall, hvalue, hstop⟩ | ⟨hbig, hmore⟩⟩ := varintFrom_eq_ok hread
    · refine ⟨1, by rw [hrest, hstop, List.length_cons, Nat.add_comm], b.toNat, hvalue, ?_, ?_⟩
      · have : 0 < 128 ^ left := Nat.pow_pos (by decide)
        rw [Nat.pow_succ]
        omega
      · intro fuel _
        cases fuel <;> simp [Wire.varintWithin, hsmall]
    · -- the byte adds a digit below those of `v`, and the shortest form has no more
      obtain ⟨n, hn, v, hvalue, hbound, hshort⟩ := ih _ _ _ hmore
      have hlength : c.rest.length = n + 1 + c'.rest.length := by
        rw [hrest, List.length_cons, hn]
        omega
      refine ⟨n + 1, hlength, b.toNat % 128 + 128 * v, ?_, ?_, ?_⟩
      · rw [hvalue, Nat.add_mul, Nat.add_assoc, ← Nat.mul_assoc, Nat.mul_comm v 128]
      · rw [Nat.pow_succ]
        omega
      · intro fuel hfuel
        cases fuel with
        | zero => simp [Wire.varintWithin]
        | succ fuel =>
          rw [Wire.varintWithin]
          split
          · simp
          · have := hshort fuel (by omega)
            rw [List.length_cons, show (b.toNat % 128 + 128 * v) / 128 = v by omega]
            omega

theorem yields_varint :
    Yields varint fun n value => value < Word.count64 ∧ (Wire.varint value).length ≤ n := by
  intro c value c' hread
  obtain ⟨n, hn, v, hvalue, hbound, hshort⟩ := yields_varintFrom c.offset 9 1 0 c value c' hread
  obtain rfl : value = v := by omega
  exact ⟨n, hn, hbound, hshort value (Nat.le_refl value)⟩

theorem yields_count (limit : Nat) : Yields (count limit) fun n value =>
    value ≤ limit ∧ value < Word.count64 ∧ (Wire.varint value).length ≤ n := by
  apply yields_offset.bind
  rintro _ start rfl
  apply yields_varint.bind
  intro n value hvalue
  apply Yields.guard
  intro hlimit
  apply Yields.pure
  omega

theorem yields_block : Yields block fun n bytes =>
    bytes.length < Word.count64 ∧ (Wire.block bytes).length ≤ n := by
  apply yields_remaining.bind
  rintro _ length rfl
  apply (yields_count length).bind
  rintro n k ⟨-, hk, hprefix⟩
  apply (yields_take k).mono
  rintro _ bytes ⟨hbytes, rfl⟩
  rw [Wire.block, List.length_append, hbytes]
  omega

theorem yields_text : Yields text fun n s =>
    (Utf8.encode s).length < Word.count64 ∧ (Wire.text s).length ≤ n := by
  apply yields_offset.bind
  rintro _ start rfl
  apply yields_block.bind
  intro n bytes hbytes
  split
  · next s hs =>
    apply Yields.pure
    rw [Wire.text, Utf8.encode_of_decode hs]
    simpa using hbytes
  · exact .throw _

theorem Yields.of_eval {bytes : Bytes} {a : α} (h : Yields read P)
    (heval : read.eval bytes = .ok a) : ∃ n ≤ bytes.length, P n a := by
  unfold eval at heval
  split at heval
  · next a' c hread =>
    cases heval
    obtain ⟨n, hn, ha⟩ := h _ _ _ hread
    exact ⟨n, by rw [show bytes.length = n + c.rest.length from hn]; omega, ha⟩
  · cases heval

theorem Yields.of_reads {bytes rest : Bytes} {a : α} (h : Yields read P)
    (hreads : Reads read bytes rest a) : P bytes.length a := by
  obtain ⟨n, hn, ha⟩ := h _ _ _ (hreads 0)
  rw [List.length_append, Nat.add_right_cancel_iff] at hn
  rwa [hn]

theorem yields_replicate {encode : α → Bytes} {S : α → Prop}
    (h : Yields read fun n a => S a ∧ (encode a).length ≤ n) (k : Nat) :
    Yields (replicate read k) fun n as =>
      as.length = k ∧ (∀ a ∈ as, S a) ∧ (as.flatMap encode).length ≤ n := by
  induction k with
  | zero => exact .pure ⟨rfl, by simp, Nat.le_refl 0⟩
  | succ k ih =>
    apply h.bind
    rintro n a ⟨ha, hn⟩
    apply ih.bind
    rintro m as ⟨hlength, has, hm⟩
    apply Yields.pure
    refine ⟨by rw [List.length_cons, hlength], by simpa using ⟨ha, has⟩, ?_⟩
    rw [List.flatMap_cons, List.length_append]
    omega

end Decoder

end SkipChain
