import SkipChain.Proofs.Wire.Local
/-!
Reads that keep to the bytes they take. They only go forward, also where they fail; and where they
succeed, they do so whatever lies after the bytes that they have taken. A length that is held
against what remains is harmless if at least as many bytes are taken after it.
-/
namespace SkipChain

def Cursor.within (data : Bytes) (position : Nat) : Cursor := ⟨position, data.drop position⟩

def Cursor.Ahead (c c' : Cursor) : Prop :=
  ∃ bytes, c.rest = bytes ++ c'.rest ∧ c'.offset = c.offset + bytes.length

theorem Cursor.Ahead.refl (c : Cursor) : c.Ahead c := ⟨[], rfl, rfl⟩

theorem Cursor.Ahead.trans {c c' c'' : Cursor} (h : c.Ahead c') (h' : c'.Ahead c'') :
    c.Ahead c'' := by
  obtain ⟨bytes, hbytes, hoffset⟩ := h
  obtain ⟨more, hmore, hoffset'⟩ := h'
  refine ⟨bytes ++ more, by rw [hbytes, hmore, List.append_assoc], ?_⟩
  rw [hoffset', hoffset, List.length_append, Nat.add_assoc]

namespace Decoder

variable {ε α β : Type} {read : Decoder ε α} {next : α → Decoder ε β}
variable {c c' : Cursor} {a : α} {e : ε}

structure Contained (read : Decoder ε α) : Prop where
  failed : ∀ c e c', read c = .error e c' → c.Ahead c'
  /-- The bytes that a value was read from are enough to read it again. -/
  again : ∀ c a c', read c = .ok a c' → ∃ bytes, c.rest = bytes ++ c'.rest ∧
    c'.offset = c.offset + bytes.length ∧
      ∀ rest, read ⟨c.offset, bytes ++ rest⟩ = .ok a ⟨c'.offset, rest⟩

namespace Contained

theorem ahead (h : Contained read) (hread : read c = .ok a c') : c.Ahead c' := by
  obtain ⟨bytes, hbytes, hoffset, -⟩ := h.again c a c' hread
  exact ⟨bytes, hbytes, hoffset⟩

theorem of_local (h : Local read) (hfailed : ∀ c e c', read c = .error e c' → c.Ahead c') :
    Contained read where
  failed := hfailed
  again := by
    intro c a c' hread
    obtain ⟨bytes, hbytes, hreads⟩ := h c a c' hread
    have hsame := hreads c'.rest c.offset
    rw [← hbytes, hread] at hsame
    simp only [EStateM.Result.ok.injEq, true_and] at hsame
    rw [hsame]
    exact ⟨bytes, hbytes, rfl, fun rest => hreads rest c.offset⟩

theorem pure (a : α) : Contained (pure a : Decoder ε α) where
  failed := nofun
  again := by
    rintro c _ _ ⟨⟩
    exact ⟨[], rfl, rfl, fun _ => rfl⟩

theorem throw (e : ε) : Contained (throw e : Decoder ε α) where
  failed := by
    rintro c _ _ ⟨⟩
    exact .refl c
  again := nofun

theorem bind (h : Contained read) (hnext : ∀ a, Contained (next a)) :
    Contained (read >>= next) where
  failed := by
    intro c e c'' hrun
    cases hread : read c with
    | error e' c' =>
      rw [run_bind_error hread] at hrun
      cases hrun
      exact h.failed c _ _ hread
    | ok a c' =>
      rw [run_bind_ok hread] at hrun
      exact (h.ahead hread).trans ((hnext a).failed c' e c'' hrun)
  again := by
    intro c b c'' hrun
    obtain ⟨a, c', hread, hrun⟩ := run_bind_eq_ok.1 hrun
    obtain ⟨first, hfirst, hoffset, hagain⟩ := h.again c a c' hread
    obtain ⟨more, hmore, hoffset', hagain'⟩ := (hnext a).again c' b c'' hrun
    refine ⟨first ++ more, by rw [hfirst, hmore, List.append_assoc], ?_, fun rest => ?_⟩
    · rw [hoffset', hoffset, List.length_append, Nat.add_assoc]
    · rw [List.append_assoc, run_bind_ok (hagain (more ++ rest))]
      exact hagain' rest

theorem map {f : α → β} (h : Contained read) : Contained (f <$> read) := by
  rw [map_eq_pure_bind]
  exact h.bind fun a => .pure (f a)

theorem ite {p : Prop} [Decidable p] {yes no : Decoder ε α} (hyes : Contained yes)
    (hno : Contained no) : Contained (if p then yes else no) := by
  split
  · exact hyes
  · exact hno

theorem guard {p : Prop} [Decidable p] {e : ε} {next : PUnit → Decoder ε β}
    (h : Contained (next ⟨⟩)) :
    Contained (if p then MonadExcept.throw e >>= next else next ⟨⟩) :=
  .ite ((Contained.throw e).bind fun _ => h) h

theorem offset_bind {next : Nat → Decoder ε β} (h : ∀ n, Contained (next n)) :
    Contained (offset >>= next) where
  failed c := (h c.offset).failed c
  again c := (h c.offset).again c

end Contained

theorem contained_byte : Contained byte := by
  refine .of_local local_byte fun c e c' hread => ?_
  unfold byte at hread
  split at hread
  · cases hread
    exact .refl c
  · cases hread

theorem contained_take (n : Nat) : Contained (take n) := by
  refine .of_local (local_take n) fun c e c' hread => ?_
  unfold take at hread
  dsimp only at hread
  split at hread
  · cases hread
    exact .refl c
  · cases hread

theorem contained_digest : Contained digest := by
  refine .of_local local_digest fun c e c' hread => ?_
  unfold digest at hread
  split at hread
  · cases hread
  · cases hread
    exact .refl c

theorem contained_word64 : Contained word64 :=
  .bind (.bind (contained_take 8) fun _ => .pure _) fun _ => .pure _

theorem contained_int64 : Contained int64 :=
  contained_word64.bind fun _ => .pure _

theorem ahead_varintFrom {start left place low : Nat} {e : ValueError}
    (h : varintFrom start left place low c = .error e c') : c.Ahead c' := by
  induction left generalizing place low c with
  | zero =>
    cases h
    exact .refl _
  | succ left ih =>
    obtain ⟨offset, ahead⟩ := c
    cases ahead with
    | nil =>
      cases h
      exact .refl _
    | cons b rest =>
      have hstep : Cursor.Ahead ⟨offset, b :: rest⟩ ⟨offset + 1, rest⟩ := ⟨[b], rfl, rfl⟩
      rw [varintFrom_byte] at h
      split at h
      · cases h
        exact hstep
      · split at h
        · cases h
        · exact hstep.trans (ih h)

theorem contained_varint : Contained varint :=
  .of_local local_varint fun _ _ _ => ahead_varintFrom

theorem contained_count (limit : Nat) : Contained (count limit) := by
  apply Contained.offset_bind
  intro start
  apply contained_varint.bind
  intro n
  exact .guard (.pure n)

theorem Contained.counted {next : Nat → Decoder ValueError β} (h : ∀ n, Contained (next n))
    (htakes : ∀ n, Yields (next n) fun taken _ => n ≤ taken) :
    Contained (remaining >>= fun left => count left >>= next) where
  failed c := ((contained_count c.rest.length).bind h).failed c
  again := by
    intro c b c'' hrun
    obtain ⟨n, c', hcount, hrun⟩ := run_bind_eq_ok.1
      (show (count c.rest.length >>= next) c = .ok b c'' from hrun)
    obtain ⟨first, hfirst, hoffset, hagain⟩ := (contained_count _).again c n c' hcount
    obtain ⟨more, hmore, hoffset', hagain'⟩ := (h n).again c' b c'' hrun
    obtain ⟨taken, htaken, hn⟩ := htakes n c' b c'' hrun
    refine ⟨first ++ more, by rw [hfirst, hmore, List.append_assoc], ?_, fun rest => ?_⟩
    · rw [hoffset', hoffset, List.length_append, Nat.add_assoc]
    · rw [hmore, List.length_append, Nat.add_right_cancel_iff] at htaken
      -- however little follows, the bytes that are taken next are there to be counted
      have hfits : n ≤ (first ++ (more ++ rest)).length := by
        simp only [List.length_append]
        omega
      have hcount' : count (first ++ (more ++ rest)).length ⟨c.offset, first ++ (more ++ rest)⟩ =
          .ok n ⟨c'.offset, more ++ rest⟩ :=
        count_eq_ok_iff.2 ⟨(count_eq_ok_iff.1 (hagain (more ++ rest))).1, hfits⟩
      rw [List.append_assoc]
      exact (run_bind_ok hcount').trans (hagain' rest)

theorem contained_block : Contained block :=
  .counted contained_take fun n => (yields_take n).mono fun _ _ h => Nat.le_of_eq h.2.symm

theorem contained_text : Contained text := by
  apply Contained.offset_bind
  intro start
  apply contained_block.bind
  intro bytes
  split
  · exact .pure _
  · exact .throw _

theorem contained_replicate (h : Contained read) (n : Nat) : Contained (replicate read n) := by
  induction n with
  | zero => exact .pure []
  | succ n ih => exact h.bind fun a => ih.bind fun as => .pure (a :: as)

/-- Where the cursor stands after a read, be it at the end of a value or at a failure. -/
def stop (read : Decoder ε α) (c : Cursor) : Cursor :=
  match read c with
  | .ok _ c' => c'
  | .error _ c' => c'

/-- A read that depends only on the bytes that it takes. -/
structure Causal (read : Decoder ε α) : Prop where
  /-- The cursor neither goes back nor leaves the data, also where the read fails. -/
  stays : ∀ data p, p ≤ data.length → ∃ q, p ≤ q ∧ q ≤ data.length ∧
    read.stop (.within data p) = .within data q
  /-- What is read from `p` to `q` is read alike from all data that is the same up to `q`. -/
  determined : ∀ data p a q, read (.within data p) = .ok a (.within data q) →
    ∀ data', q ≤ data'.length → data'.take q = data.take q →
      read (.within data' p) = .ok a (.within data' q)

theorem Contained.causal (h : Contained read) : Causal read where
  stays := by
    intro data p hp
    have hahead : (Cursor.within data p).Ahead (read.stop (.within data p)) := by
      unfold stop
      split
      · next hread => exact h.ahead hread
      · next hread => exact h.failed _ _ _ hread
    obtain ⟨bytes, hbytes, hoffset⟩ := hahead
    generalize read.stop (.within data p) = c' at hbytes hoffset
    obtain ⟨q, rest⟩ := c'
    dsimp only [Cursor.within] at hbytes hoffset
    subst hoffset
    have hlength := congrArg List.length hbytes
    rw [List.length_drop, List.length_append] at hlength
    refine ⟨p + bytes.length, by omega, by omega, ?_⟩
    rw [Cursor.within, ← List.drop_drop, hbytes, List.drop_left]
  determined := by
    intro data p a q hread data' hq hsame
    obtain ⟨bytes, hbytes, hoffset, hagain⟩ := h.again _ a _ hread
    dsimp only [Cursor.within] at hbytes hoffset hagain
    have htaken : (data'.take q).drop p = bytes := by
      rw [hsame, List.drop_take, hbytes, hoffset, Nat.add_sub_cancel_left, List.take_left]
    have hdata : data'.drop p = bytes ++ data'.drop q := by
      rw [← htaken, ← List.drop_append_of_le_length (by rw [List.length_take]; omega),
        List.take_append_drop]
    rw [Cursor.within, hdata]
    exact hagain (data'.drop q)

end Decoder

end SkipChain
