import SkipChain.Proofs.Table.Accepted
/-!
The encodings of cells, rows and salt schemes need no end mark. Whatever follows one of them, it is
read back as the value it was made of; and whatever is accepted, be it spelled with more bytes than
it needs, is a value that may be, whose own encoding is read as the same value.
-/
namespace SkipChain

namespace Decoder

variable {ε α : Type} {read : Decoder ε α} {encode : α → Bytes} {rule fits : α → Prop}

/-- What `read` accepts keeps a rule, and its encoding takes no more bytes and is read as the same
value, whatever follows. -/
def Normalizes (read : Decoder ε α) (encode : α → Bytes) (rule : α → Prop) : Prop :=
  ∀ c a c', read c = .ok a c' → rule a ∧ (encode a).length + c'.rest.length ≤ c.rest.length ∧
    ∀ rest, Reads read (encode a) rest a

theorem Yields.reads_iff (h : Yields read fun n a => fits a ∧ (encode a).length ≤ n)
    (hfits : ∀ a, fits a → ∀ rest, Reads read (encode a) rest a) (a : α) (rest : Bytes) :
    Reads read (encode a) rest a ↔ fits a :=
  ⟨fun hreads => (h.of_reads hreads).1, fun ha => hfits a ha rest⟩

theorem Yields.normalizes (h : Yields read fun n a => fits a ∧ (encode a).length ≤ n)
    (hfits : ∀ a, fits a → ∀ rest, Reads read (encode a) rest a) (hrule : ∀ a, fits a → rule a) :
    Normalizes read encode rule := by
  intro c a c' hread
  obtain ⟨n, hn, ha, hlength⟩ := h c a c' hread
  exact ⟨hrule a ha, by omega, hfits a ha⟩

end Decoder

open Decoder (Reads Refuses Normalizes)

namespace Cell

def Allowed (value : Value) (salt : Option Salt) : Prop :=
  ¬value.isNaN ∧ ¬(value.columnType = .hash ∧ salt.isSome)

theorem refusal?_eq_none_iff {value : Value} {salt : Option Salt} :
    refusal? value salt = none ↔ Allowed value salt := by
  unfold refusal? Allowed
  split
  · next hnan => simp [hnan]
  · next hnan =>
    cases value <;> cases salt <;> simp_all [Value.columnType, ColumnType.saltable]

theorem exists_make_iff {value : Value} {salt : Option Salt} :
    (∃ c, make value salt = .ok c) ↔ Allowed value salt := by
  rw [← refusal?_eq_none_iff]
  constructor
  · rintro ⟨c, hmake⟩
    obtain ⟨rfl, rfl⟩ := make_eq_ok hmake
    exact c.admitted
  · intro h
    exact ⟨⟨value, salt, h⟩, make_self ⟨value, salt, h⟩⟩

theorem allowed (c : Cell) : Allowed c.value c.salt := refusal?_eq_none_iff.1 c.admitted

theorem refuses_of_not_allowed {value : Value} {salt : Option Salt} (hsized : value.Sized)
    (h : ¬Allowed value salt) (rest : Bytes) : Refuses decode (spell value salt ++ rest) := by
  cases hmake : make value salt with
  | ok c => exact absurd (exists_make_iff.1 ⟨c, hmake⟩) h
  | error e => exact refuses_decode hsized hmake

end Cell

/-- Encodings of cells, rows and salt schemes are read back, up to where they end, whatever follows:
of cells all whose lengths have 64 bits, of such rows those with no more cells than the limit. What
may not be a cell is not read as one. What is read at all may be a cell, takes no more bytes in its
own encoding, and is read from that as the same. -/
theorem encodings_delimited :
    (∀ (c : Cell) (rest : Bytes), Reads Cell.decode c.encode rest c ↔ c.value.Sized) ∧
    (∀ (value : Value) (salt : Option Salt), value.Sized → ¬Cell.Allowed value salt →
      ∀ rest, Refuses Cell.decode (Cell.spell value salt ++ rest)) ∧
    (∀ (r : Row) (limit : Nat) (rest : Bytes),
      (Reads (Row.decode limit) r.encode rest r ↔ r.size ≤ limit ∧ r.Sized) ∧
      (limit < r.size → Refuses (Row.decode limit) (r.encode ++ rest))) ∧
    (∀ (s : SaltScheme) (rest : Bytes), Reads SaltScheme.decode s.encode rest s) ∧
    Normalizes Cell.decode Cell.encode (fun c => Cell.Allowed c.value c.salt) ∧
    (∀ limit, Normalizes (Row.decode limit) Row.encode fun r =>
      r.size ≤ limit ∧ ∀ c ∈ r.cells, Cell.Allowed c.value c.salt) ∧
    Normalizes SaltScheme.decode SaltScheme.encode (fun _ => True) := by
  have hcell : ∀ c : Cell, c.value.Sized → ∀ rest, Reads Cell.decode c.encode rest c :=
    fun c h _ => c.reads_decode h
  have hrow (limit : Nat) : ∀ r : Row, r.size ≤ limit ∧ r.Sized → ∀ rest,
      Reads (Row.decode limit) r.encode rest r := fun r h _ => r.reads_decode h.1 h.2
  have yields_row (limit : Nat) := (Row.yields_decode limit).mono fun _ _ h =>
    And.intro (And.intro h.1 h.2.1) h.2.2
  refine ⟨Cell.yields_decode.reads_iff hcell, fun value salt => Cell.refuses_of_not_allowed,
    fun r limit rest => ⟨(yields_row limit).reads_iff (hrow limit) r rest, r.refuses_decode⟩,
    fun s _ => s.reads_decode, Cell.yields_decode.normalizes hcell fun c _ => c.allowed,
    fun limit => (yields_row limit).normalizes (hrow limit) fun r h =>
      ⟨h.1, fun c _ => c.allowed⟩, ?_⟩
  have yields_scheme := SaltScheme.yields_decode.mono fun _ _ h => And.intro trivial h
  exact yields_scheme.normalizes (fun s _ _ => s.reads_decode) fun _ _ => trivial

def Row.assorted : Row :=
  ⟨[⟨.null, some (.ofDigest .sentinel), rfl⟩, .ofDigest .sentinel, ⟨.bytes [0, 255], none, rfl⟩,
    ⟨.string "3 €", some (.ofDigest .sentinel), rfl⟩, ⟨.long (-1), none, rfl⟩,
    ⟨.double 0x8000000000000000, none, rfl⟩, ⟨.date 86400000, none, rfl⟩]⟩

theorem encodings_delimited_assorted :
    Row.assorted.Sized ∧
    Row.decode 7 ⟨5, Row.assorted.encode ++ [9]⟩ =
      .ok .assorted ⟨5 + Row.assorted.encode.length, [9]⟩ ∧
    (∃ e c, Row.decode 6 ⟨5, Row.assorted.encode ++ [9]⟩ = .error e c) ∧
    ¬Cell.Allowed (.hash .sentinel) (some (.ofDigest .sentinel)) ∧
    (∃ e c, Cell.decode
      ⟨0, Cell.spell (.hash .sentinel) (some (.ofDigest .sentinel)) ++ [9]⟩ = .error e c) ∧
    Row.decode 7 ⟨0, [0x81, 0x00, 1, 0, 9]⟩ = .ok ⟨[⟨.null, none, rfl⟩]⟩ ⟨4, [9]⟩ ∧
    Row.encode ⟨[⟨.null, none, rfl⟩]⟩ = [1, 1, 0] ∧
    Row.decode 7 ⟨0, [1, 1, 0, 9]⟩ = .ok ⟨[⟨.null, none, rfl⟩]⟩ ⟨3, [9]⟩ := by
  obtain ⟨-, improper, row, -, -, normalizes, -⟩ := encodings_delimited
  have hsized : Row.assorted.Sized := Row.sized_of_length (by decide +kernel)
  have hhash : ¬Cell.Allowed (.hash .sentinel) (some (.ofDigest .sentinel)) :=
    fun h => h.2 ⟨rfl, rfl⟩
  -- the number of cells takes two bytes here, and one byte when it is written again
  have hlong : Row.decode 7 ⟨0, [0x81, 0x00, 1, 0, 9]⟩ = .ok ⟨[⟨.null, none, rfl⟩]⟩ ⟨4, [9]⟩ := rfl
  exact ⟨hsized, (row .assorted 7 [9]).1.2 ⟨by decide, hsized⟩ 5,
    (row .assorted 6 [9]).2 (by decide) 5, hhash,
    improper (.hash .sentinel) _ trivial hhash [9] 0, hlong, rfl,
    (normalizes 7 _ _ _ hlong).2.2 [9] 0⟩

end SkipChain
