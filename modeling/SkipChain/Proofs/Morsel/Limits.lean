import SkipChain.Proofs.Morsel.Normal
/-!
What the limits of a reader do: they only reject. For data that some limits accept there are least
ones, and under exactly the limits that are at least these it is accepted, always as the same
morsel. Each count and each length that is held against a limit raises the least one.
-/
namespace SkipChain

namespace Limits

variable {α β : Type} {l l' m : Limits} {f : Limits → Nat}

instance : Preorder Limits where
  le l l' := l.maxLedgers ≤ l'.maxLedgers ∧ l.maxSectionBytes ≤ l'.maxSectionBytes ∧
    l.maxPathEntries ≤ l'.maxPathEntries ∧ l.maxCellsPerRow ≤ l'.maxCellsPerRow
  le_refl l := by simp
  le_trans l l' m := by omega

theorem le_def : l ≤ l' ↔ l.maxLedgers ≤ l'.maxLedgers ∧ l.maxSectionBytes ≤ l'.maxSectionBytes ∧
    l.maxPathEntries ≤ l'.maxPathEntries ∧ l.maxCellsPerRow ≤ l'.maxCellsPerRow := Iff.rfl

instance (l l' : Limits) : Decidable (l ≤ l') := decidable_of_iff _ le_def.symm

theorem Sized.mono (h : l'.Sized) (hle : l ≤ l') : l.Sized where
  ledgers := Nat.lt_of_le_of_lt hle.1 h.ledgers
  sectionBytes := Nat.lt_of_le_of_lt hle.2.1 h.sectionBytes
  pathEntries := Nat.lt_of_le_of_lt hle.2.2.1 h.pathEntries
  cellsPerRow := Nat.lt_of_le_of_lt hle.2.2.2 h.cellsPerRow

def zero : Limits := ⟨0, 0, 0, 0⟩

theorem zero_le (l : Limits) : zero ≤ l := by simp [le_def, zero]

def join (l l' : Limits) : Limits where
  maxLedgers := max l.maxLedgers l'.maxLedgers
  maxSectionBytes := max l.maxSectionBytes l'.maxSectionBytes
  maxPathEntries := max l.maxPathEntries l'.maxPathEntries
  maxCellsPerRow := max l.maxCellsPerRow l'.maxCellsPerRow

theorem join_le_iff : join l l' ≤ m ↔ l ≤ m ∧ l' ≤ m := by
  simp only [le_def, join, Nat.max_le]
  tauto

/-- To hold a number against the bound `f` is to ask for limits that are at least some. -/
def Bounds (f : Limits → Nat) : Prop := ∀ n, ∃ least : Limits, ∀ l, n ≤ f l ↔ least ≤ l

theorem bounds_maxLedgers : Bounds maxLedgers :=
  fun n => ⟨⟨n, 0, 0, 0⟩, fun _ => by simp [le_def]⟩

theorem bounds_maxSectionBytes : Bounds maxSectionBytes :=
  fun n => ⟨⟨0, n, 0, 0⟩, fun _ => by simp [le_def]⟩

theorem bounds_maxPathEntries : Bounds maxPathEntries :=
  fun n => ⟨⟨0, 0, n, 0⟩, fun _ => by simp [le_def]⟩

theorem bounds_maxCellsPerRow : Bounds maxCellsPerRow :=
  fun n => ⟨⟨0, 0, 0, n⟩, fun _ => by simp [le_def]⟩

/-- Something gives nothing under any limits, or it gives one value, and this under exactly the
limits that are at least some least ones. -/
def OnlyReject (gives : Limits → α → Prop) : Prop :=
  (∀ l a, ¬gives l a) ∨ ∃ a least, ∀ l b, gives l b ↔ b = a ∧ least ≤ l

namespace OnlyReject

variable {gives gives' : Limits → α → Prop} {next : α → Limits → β → Prop}

theorem congr (h : OnlyReject gives) (hiff : ∀ l a, gives' l a ↔ gives l a) :
    OnlyReject gives' := by
  rwa [show gives' = gives from funext₂ fun l a => propext (hiff l a)]

theorem free {gives : α → Prop} (hone : ∀ a b, gives a → gives b → b = a) :
    OnlyReject fun _ => gives := by
  by_cases h : ∃ a, gives a
  · obtain ⟨a, ha⟩ := h
    refine .inr ⟨a, zero, fun l b => ⟨fun hb => ⟨hone a b ha hb, zero_le l⟩, ?_⟩⟩
    rintro ⟨rfl, -⟩
    exact ha
  · exact .inl fun _ a ha => h ⟨a, ha⟩

theorem bind (h : OnlyReject gives) (hnext : ∀ a, OnlyReject (next a)) :
    OnlyReject fun l b => ∃ a, gives l a ∧ next a l b := by
  rcases h with hnone | ⟨a, least, hone⟩
  · exact .inl fun l b ⟨a, ha, _⟩ => hnone l a ha
  have hafter (l : Limits) (b : β) : (∃ a, gives l a ∧ next a l b) ↔ least ≤ l ∧ next a l b := by
    simp only [hone]
    constructor
    · rintro ⟨_, ⟨rfl, hl⟩, hb⟩
      exact ⟨hl, hb⟩
    · rintro ⟨hl, hb⟩
      exact ⟨a, ⟨rfl, hl⟩, hb⟩
  -- the first part gives one value, so there is one second part to look at
  rcases hnext a with hnone' | ⟨b, least', hone'⟩
  · exact .inl fun l b hb => hnone' l b ((hafter l b).1 hb).2
  · refine .inr ⟨b, least.join least', fun l b' => (hafter l b').trans ?_⟩
    rw [hone', join_le_iff]
    tauto

theorem guard (hf : Bounds f) (n : Nat) (h : OnlyReject gives) :
    OnlyReject fun l a => n ≤ f l ∧ gives l a := by
  obtain ⟨least, hleast⟩ := hf n
  have hcheck : OnlyReject fun l (_ : Unit) => n ≤ f l :=
    .inr ⟨⟨⟩, least, fun l _ => (hleast l).trans (and_iff_right rfl).symm⟩
  exact (hcheck.bind fun _ => h).congr fun l a => (exists_const Unit).symm

theorem guard_free {p : Prop} (h : p → OnlyReject gives) : OnlyReject fun l a => p ∧ gives l a := by
  by_cases hp : p
  · exact (h hp).congr fun l a => and_iff_right hp
  · exact .inl fun _ _ ha => hp ha.1

theorem const (a : α) : OnlyReject fun _ b => a = b :=
  free fun _ _ hb hc => hc.symm.trans hb

theorem uncons {σ : Type} {gives : σ → List σ → Limits → α → Prop}
    (h : ∀ first rest, OnlyReject (gives first rest)) (ss : List σ) :
    OnlyReject fun l a => ∃ first rest, ss = first :: rest ∧ gives first rest l a := by
  cases ss with
  | nil => exact .inl fun l a ⟨_, _, hcons, _⟩ => nomatch hcons
  | cons first rest =>
    apply (h first rest).congr
    intro l a
    constructor
    · rintro ⟨_, _, ⟨⟩, ha⟩
      exact ha
    · exact fun ha => ⟨first, rest, rfl, ha⟩

theorem of_result {ε : Type} (x : Except ε α) : OnlyReject fun _ a => x = .ok a :=
  free fun _ _ ha hb => Except.ok.inj (hb.symm.trans ha)

end OnlyReject

end Limits

open Limits (OnlyReject Bounds)

namespace Decoder

variable {ε δ α β : Type} {read : Limits → Decoder ε α} {next : α → Limits → Decoder ε β}
  {f : Limits → Nat}

def Limited (read : Limits → Decoder ε α) : Prop :=
  ∀ c, OnlyReject fun l (r : α × Cursor) => read l c = .ok r.1 r.2

theorem Limited.free (read : Decoder ε α) : Limited fun _ => read := by
  intro c
  apply OnlyReject.free
  rintro ⟨a, c'⟩ ⟨b, c''⟩ ha hb
  cases ha.symm.trans hb
  rfl

theorem Limited.bind (h : Limited read) (hnext : ∀ a, Limited (next a)) :
    Limited fun l => read l >>= fun a => next a l := by
  intro c
  apply ((h c).bind fun r => hnext r.1 r.2).congr
  intro l r
  simp only [run_bind_eq_ok, Prod.exists]

theorem Limited.bind_free {next : α → Decoder ε β} (h : Limited read) :
    Limited fun l => read l >>= next := h.bind fun a => .free (next a)

theorem Limited.mapError {g : ε → δ} (h : Limited read) : Limited fun l => mapError g (read l) := by
  intro c
  apply (h c).congr
  intro l r
  unfold Decoder.mapError
  cases hread : read l c <;> simp [hread]

theorem Limited.guard (hf : Bounds f) {e : Limits → ε} {next : Limits → PUnit → Decoder ε β}
    (n : Nat) (h : Limited fun l => next l ⟨⟩) :
    Limited fun l => if f l < n then throw (e l) >>= next l else next l ⟨⟩ := by
  intro c
  apply ((h c).guard hf n).congr
  intro l r
  dsimp only
  split
  · next hlow =>
    simp only [Nat.not_le.2 hlow, false_and, iff_false]
    exact nofun
  · next hlow => rw [and_iff_right (Nat.not_lt.1 hlow)]

theorem eval_eq_ok_iff {read : Decoder ε α} {bytes : Bytes} {a : α} : read.eval bytes = .ok a ↔
    ∃ r : α × Cursor, read (.start bytes) = .ok r.1 r.2 ∧ r.1 = a := by
  unfold eval EStateM.run
  cases read (.start bytes) with
  | error e c => simp
  | ok b c =>
    constructor
    · rintro ⟨⟩
      exact ⟨(_, c), rfl, rfl⟩
    · rintro ⟨⟨_, _⟩, ⟨⟩, rfl⟩
      rfl

theorem limited_count (hf : Bounds f) : Limited fun l => count (f l) := by
  apply (Limited.free offset).bind
  intro start
  apply (Limited.free varint).bind
  intro n
  exact .guard hf n (.free _)

end Decoder

open Decoder (Limited)

namespace Section

theorem limited_decode : Limited fun l => decode l.maxSectionBytes := by
  apply (Limited.free Decoder.byte).bind
  intro tag
  exact (Decoder.limited_count Limits.bounds_maxSectionBytes).bind_free

theorem readAll_cons_eq {limit fuel : Nat} {c : Cursor} {ss : List Section}
    (hmore : ¬c.rest.isEmpty) :
    readAll limit (fuel + 1) c = (ss, none) ↔ ∃ r : Section × Cursor,
      decode limit c = .ok r.1 r.2 ∧ ∃ later, readAll limit fuel r.2 = (later, none) ∧
        r.1 :: later = ss := by
  rw [readAll, if_neg hmore]
  split
  · next hread => simp [hread]
  · next s c' hread =>
    simp only [hread]
    constructor
    · intro h
      obtain ⟨rfl, hfault⟩ := Prod.mk.inj h
      exact ⟨(s, c'), rfl, _, Prod.ext rfl hfault, rfl⟩
    · rintro ⟨⟨_, _⟩, ⟨⟩, later, hlater, rfl⟩
      rw [hlater]

theorem onlyReject_readAll (fuel : Nat) (c : Cursor) :
    OnlyReject fun l ss => readAll l.maxSectionBytes fuel c = (ss, none) := by
  induction fuel generalizing c with
  | zero => exact (OnlyReject.const []).congr fun l ss => by simp [readAll]
  | succ fuel ih =>
    by_cases hend : c.rest.isEmpty
    · exact (OnlyReject.const []).congr fun l ss => by simp [readAll, hend]
    · have hread := (limited_decode c).bind fun r => (ih r.2).bind fun later =>
        .const (r.1 :: later)
      exact hread.congr fun l ss => readAll_cons_eq hend

theorem onlyReject_split (bytes : Bytes) :
    OnlyReject fun l ss => split l.maxSectionBytes bytes = (ss, none) :=
  onlyReject_readAll _ _

end Section

theorem Path.limited_decode : Limited fun l => decode l.maxPathEntries := by
  have limited_count := (Decoder.limited_count Limits.bounds_maxPathEntries).mapError
    (g := MorselError.wire)
  apply (Limited.free _).bind
  intro low
  apply (Limited.free _).bind
  intro high
  apply limited_count.bind
  intro targetCount
  apply (Limited.free _).bind
  intro targets
  exact limited_count.bind_free

theorem Row.limited_decode : Limited fun l => decode l.maxCellsPerRow :=
  (Decoder.limited_count Limits.bounds_maxCellsPerRow).bind_free

namespace LedgerSection

theorem limited_decode (t : LedgerTag) : Limited fun l => decode l t := by
  cases t with
  | path => exact Path.limited_decode.bind_free
  | sourceRow =>
    apply (Limited.free _).bind
    intro row
    exact Row.limited_decode.mapError.bind_free
  | _ => exact .free _

theorem ofBody_eq_ok_iff {limits : Limits} {t : LedgerTag} {body : Bytes} {s : LedgerSection} :
    ofBody limits t body = .ok s ↔
      ∃ r : LedgerSection × Cursor, decode limits t (.start body) = .ok r.1 r.2 ∧
        r.2.rest = [] ∧ r.1 = s := by
  unfold ofBody
  split
  · next hread => simp [hread]
  · next found c hread =>
    simp only [hread]
    constructor
    · intro h
      split at h
      · next hend =>
        cases h
        exact ⟨(s, c), rfl, List.isEmpty_iff.1 hend, rfl⟩
      · cases h
    · rintro ⟨⟨_, _⟩, ⟨⟩, hend, rfl⟩
      rw [if_pos (List.isEmpty_iff.2 hend)]

theorem onlyReject_ofBody (t : LedgerTag) (body : Bytes) :
    OnlyReject fun l s => ofBody l t body = .ok s := by
  have hread := (limited_decode t (.start body)).bind fun r =>
    .guard_free (p := r.2.rest = []) fun _ => .const r.1
  exact hread.congr fun l s => ofBody_eq_ok_iff

theorem onlyReject_ofSections (scope : Scope) (last : LedgerTag) (ss : List Section) :
    OnlyReject fun l contents => ofSections l scope last ss = .ok contents := by
  induction ss generalizing last with
  | nil => exact .of_result (.ok [])
  | cons s ss ih =>
    simp only [ofSections]
    split
    · exact ih last
    · exact ih last
    · next t _ _ =>
      simp only [guard_eq_ok, bind_eq_ok]
      apply OnlyReject.guard_free
      intro _
      exact (onlyReject_ofBody t s.body).bind fun first => (ih t).bind fun later => .of_result _

end LedgerSection

namespace Package

theorem onlyReject_decode (index : Nat) (bytes : Bytes) :
    OnlyReject fun l p => decode l index bytes = .ok p := by
  refine OnlyReject.congr ?_ fun l p => decode_eq_ok_iff
  refine (Section.onlyReject_split bytes).bind (.uncons fun first rest => .guard_free fun _ => ?_)
  refine (LedgerSection.onlyReject_ofBody .identity first.body).bind fun identity => ?_
  refine (LedgerSection.onlyReject_ofSections (.place index) .identity rest).bind fun contents =>
    .guard_free fun _ => ?_
  exact .const _

end Package

namespace MorselSection

theorem onlyReject_decodeLedger (names : List String) (index : Nat) (body : Bytes) :
    OnlyReject fun l p => decodeLedger l names index body = .ok p := by
  unfold decodeLedger
  split
  · exact .of_result _
  · simp only [bind_eq_ok, guard_eq_ok]
    exact (Package.onlyReject_decode index body).bind fun p => .guard_free fun _ => .of_result _

theorem onlyReject_ofSections (names : List String) (last : MorselTag) (index : Nat)
    (ss : List Section) :
    OnlyReject fun l contents => ofSections l names last index ss = .ok contents := by
  induction ss generalizing last index with
  | nil => exact .of_result (.ok [])
  | cons s ss ih =>
    simp only [ofSections]
    split
    · exact ih last index
    · next tag htag =>
      simp only [guard_eq_ok]
      apply OnlyReject.guard_free
      intro _
      cases tag with
      | ledgers => exact ih .ledgers index
      | notes =>
        simp only [bind_eq_ok]
        exact .bind (.of_result _) fun text => (ih .notes index).bind fun later => .of_result _
      | assets =>
        simp only [bind_eq_ok]
        exact (ih .assets index).bind fun later => .of_result _
      | ledger =>
        simp only [bind_eq_ok]
        exact (onlyReject_decodeLedger names index s.body).bind fun p =>
          (ih .ledger (index + 1)).bind fun later => .of_result _

end MorselSection

namespace Morsel

variable {limits : Limits} {data : Bytes} {m : Morsel}

theorem limited_decodeList : Limited decodeList := by
  apply (Limited.free _).bind
  intro n
  by_cases hempty : n = 0
  · simp only [if_pos hempty]
    exact .free _
  · simp only [if_neg hempty]
    exact .guard Limits.bounds_maxLedgers n (.free _)

theorem onlyReject_evalList (body : Bytes) :
    OnlyReject fun l names => (decodeList l).eval body = .ok names := by
  have hread := (limited_decodeList (.start body)).bind fun r => OnlyReject.const r.1
  exact hread.congr fun l names => Decoder.eval_eq_ok_iff

theorem onlyReject_decodeSections (algorithm : Algorithm) (bytes : Bytes) :
    OnlyReject fun l m => decodeSections l algorithm bytes = .ok m := by
  refine OnlyReject.congr ?_ fun l m => decodeSections_eq_ok_iff
  refine (Section.onlyReject_split bytes).bind (.uncons fun first rest => .guard_free fun _ => ?_)
  refine (onlyReject_evalList first.body).bind fun names => ?_
  refine (MorselSection.onlyReject_ofSections names .ledgers 0 rest).bind fun contents =>
    .guard_free fun _ => ?_
  exact .free fun m m' h h' => h'.1.symm.trans h.1

theorem onlyReject_decode (data : Bytes) : OnlyReject fun l m => decode l data = .ok m := by
  unfold decode
  simp only [guard_eq_ok, bind_eq_ok]
  apply OnlyReject.guard_free
  intro _
  refine .bind (.of_result _) fun algorithm => .guard_free fun _ => ?_
  exact onlyReject_decodeSections algorithm _

/-- Limits only reject. All limits under which data is read give the same morsel, and raising them
loses nothing: there are least ones, and under exactly the limits that are at least these the data
is read. -/
theorem decode_only_rejects (h : decode limits data = .ok m) :
    (∀ limits' m', decode limits' data = .ok m' → m' = m) ∧
      (∀ limits', limits ≤ limits' → decode limits' data = .ok m) ∧
      ∃ least ≤ limits, ∀ limits', (∃ m', decode limits' data = .ok m') ↔ least ≤ limits' := by
  rcases onlyReject_decode data with hnone | ⟨m₀, least, hiff⟩
  · exact absurd h (hnone limits m)
  obtain ⟨rfl, hleast⟩ := (hiff limits m).1 h
  refine ⟨fun limits' m' h' => ((hiff limits' m').1 h').1, fun limits' hle => ?_, least, hleast,
    fun limits' => ⟨?_, fun hle => ?_⟩⟩
  · exact (hiff limits' m).2 ⟨rfl, hleast.trans hle⟩
  · rintro ⟨m', h'⟩
    exact ((hiff limits' m').1 h').2
  · exact ⟨m, (hiff limits' m).2 ⟨rfl, hle⟩⟩

theorem decode_only_rejects_receipt : ∃ bytes, receipt.encode = .ok bytes ∧
    ∀ limits', (∃ m', decode limits' bytes = .ok m') ↔ (⟨1, 222, 1, 2⟩ : Limits) ≤ limits' := by
  have hvalid : receipt.validate = .ok () := by decide
  have sound := sound_of_validate hvalid
  have hsized : receipt.Sized := by decide
  have hlimits : (⟨1, 222, 1, 2⟩ : Limits).Sized := ⟨by decide, by decide, by decide, by decide⟩
  refine ⟨_, encode_eq_ok_iff.2 ⟨hvalid, rfl⟩, ?_⟩
  generalize hdata : withChecksum (receipt.header ++ receipt.sections.flatMap Section.encode) = data
  have hsections (l : Limits) : decode l data =
      decodeSections l receipt.algorithm (receipt.sections.flatMap Section.encode) := by
    rw [← hdata, decode_withChecksum]
  have h : decode ⟨1, 222, 1, 2⟩ data = .ok receipt :=
    (hsections _).trans (decodeSections_eq_ok sound hvalid hsized (by decide +kernel) hlimits)
  have hrefused (l : Limits) (hle : l ≤ ⟨1, 222, 1, 2⟩) (hexceeds : ¬receipt.Within l) :
      ¬∃ m', decode l data = .ok m' := by
    rintro ⟨m', hm'⟩
    obtain ⟨e, he⟩ := decodeSections_error hsized hexceeds (hlimits.mono hle) sound (by decide)
      receipt.algorithm
    exact nomatch he.symm.trans ((hsections l).symm.trans hm')
  have hledgers := hrefused ⟨0, 222, 1, 2⟩ (by decide) (by decide +kernel)
  have hbytes := hrefused ⟨1, 221, 1, 2⟩ (by decide) (by decide +kernel)
  have hentries := hrefused ⟨1, 222, 0, 2⟩ (by decide) (by decide +kernel)
  have hcells := hrefused ⟨1, 222, 1, 1⟩ (by decide) (by decide +kernel)
  obtain ⟨-, hraise, least, hleast, hiff⟩ := decode_only_rejects h
  intro limits'
  refine ⟨fun h' => ?_, fun hle => ⟨receipt, hraise limits' hle⟩⟩
  have hle := (hiff limits').1 h'
  simp only [hiff, Limits.le_def] at hledgers hbytes hentries hcells hle hleast ⊢
  omega

end Morsel

end SkipChain
