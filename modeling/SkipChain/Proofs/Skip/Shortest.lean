import Mathlib.Data.List.Perm.Subperm
import Mathlib.Data.Nat.Size
import Mathlib.Logic.Relation
import Mathlib.Order.Bounds.Basic
import SkipChain.Proofs.Path.Descent
import SkipChain.Proofs.Skip
import SkipChain.Skip.Levels
/-!
The way down is forced. No link passes over a row that the descent visits without ending there, so
every way down by links comes through all of these rows, and none is shorter. The hops grow up to
the longest one and shrink after it, so there are at most two for each bit of the high row.
-/
namespace SkipChain.Skip

variable {high low row n k : Nat}

theorem references_descending (row : Nat) : (references row).Pairwise (· > ·) := by
  by_cases hrow : row = 0
  · simp [references, referenceCount, hrow]
  · rw [references_eq hrow, List.pairwise_map]
    refine List.pairwise_lt_range.imp_of_mem fun {i j} _ hj hij => ?_
    rw [List.mem_range, ← level_eq hrow] at hj
    have hle := two_pow_le hrow (Nat.lt_succ_iff.1 hj)
    have hlt : 2 ^ i < 2 ^ j := Nat.pow_lt_pow_right (by decide) hij
    omega

theorem hop_isLeast (h : low < row) : IsLeast {r | r ∈ references row ∧ low ≤ r} (hop row low) := by
  refine ⟨hop_spec h, fun r ⟨hr, hlow⟩ => ?_⟩
  unfold hop
  cases hfound : (references row).reverse.find? (low ≤ ·) with
  | none =>
    have hnone := List.find?_eq_none.1 hfound r (List.mem_reverse.2 hr)
    simp [hlow] at hnone
  | some next =>
    obtain ⟨-, passed, rest, hsplit, hpassed⟩ := List.find?_eq_some_iff_append.1 hfound
    have hascending := List.pairwise_reverse.2 (references_descending row)
    rw [hsplit] at hascending
    have hmem : r ∈ passed ++ next :: rest := hsplit ▸ List.mem_reverse.2 hr
    rcases List.mem_append.1 hmem with hr | hr
    · simpa [hlow] using hpassed r hr
    · rcases List.mem_cons.1 hr with rfl | hr
      · exact Nat.le_refl _
      · have hrest := (List.pairwise_append.1 hascending).2.1
        exact Nat.le_of_lt ((List.pairwise_cons.1 hrest).1 r hr)

theorem hop_eq (hdvd : 2 ^ k ∣ row) (hlow : low + 2 ^ k ≤ row)
    (hlonger : ∀ j, 2 ^ j ∣ row → k < j → row < low + 2 ^ j) : hop row low = row - 2 ^ k := by
  have hpos := Nat.two_pow_pos k
  have hleast : IsLeast {r | r ∈ references row ∧ low ≤ r} (row - 2 ^ k) := by
    refine ⟨⟨mem_references_iff.2 ⟨by omega, k, hdvd, rfl⟩, by omega⟩, fun r ⟨hr, hle⟩ => ?_⟩
    obtain ⟨-, j, hj, rfl⟩ := mem_references_iff.1 hr
    have hjle := Nat.le_of_dvd (by omega) hj
    have hshort : j ≤ k := by
      by_contra hlong
      have hlt := hlonger j hj (Nat.not_le.1 hlong)
      omega
    exact Nat.sub_le_sub_left (Nat.pow_le_pow_right (by decide) hshort) row
  exact (hop_isLeast (by omega)).unique hleast

theorem two_pow_succ_dvd_sub (hdvd : 2 ^ k ∣ row) (hlongest : ¬2 ^ (k + 1) ∣ row) :
    2 ^ (k + 1) ∣ row - 2 ^ k := by
  obtain ⟨m, rfl⟩ := hdvd
  have hodd : ¬2 ∣ m := fun heven => hlongest (Nat.mul_dvd_mul_left (2 ^ k) heven)
  rw [← Nat.mul_sub_one, Nat.pow_succ]
  exact Nat.mul_dvd_mul_left (2 ^ k) (by omega)

section Length

/-- Once the way left is shorter than a block that the row ends, every hop halves the block. -/
theorem length_descent_of_block (hdvd : 2 ^ k ∣ high) (hgap : high < low + 2 ^ k) :
    (descent high low).length ≤ k := by
  induction k generalizing high with
  | zero =>
    rw [descent_of_le (by omega)]
    exact Nat.le_refl _
  | succ k ih =>
    have hhalf : 2 ^ k ∣ high := (Nat.pow_dvd_pow 2 (Nat.le_succ k)).trans hdvd
    have hdouble : 2 ^ (k + 1) = 2 * 2 ^ k := Nat.pow_succ'
    have hpos := Nat.two_pow_pos k
    by_cases hnear : high < low + 2 ^ k
    · exact Nat.le_succ_of_le (ih hhalf hnear)
    · have hhop : hop high low = high - 2 ^ k := by
        refine hop_eq hhalf (Nat.not_lt.1 hnear) fun j _ hj => Nat.lt_of_lt_of_le hgap ?_
        exact Nat.add_le_add_left (Nat.pow_le_pow_right (by decide) hj) low
      rw [descent_of_lt (by omega), hhop, List.length_cons]
      exact Nat.succ_le_succ (ih (Nat.dvd_sub hhalf (dvd_refl _)) (by omega))

/-- Before that, every hop is the longest that the row has and leads to a row with a longer one. -/
theorem length_descent_of_dvd {bits : Nat} (hdvd : 2 ^ k ∣ high) (hhigh : high < 2 ^ bits)
    (hk : k ≤ bits) : (descent high low).length ≤ (bits - k) + bits := by
  induction high using descent_induct low generalizing k with
  | stop row hlow =>
    rw [descent_of_le hlow]
    exact Nat.zero_le _
  | next row hlow ih =>
    have hrow : row ≠ 0 := by omega
    have hle : k ≤ level row := (two_pow_dvd_iff hrow).1 hdvd
    have hfull : 2 ^ level row ∣ row := (two_pow_dvd_iff hrow).2 (Nat.le_refl _)
    have hbits : level row < bits := by
      refine (Nat.pow_lt_pow_iff_right (Nat.lt_succ_self 1)).1 (Nat.lt_of_le_of_lt ?_ hhigh)
      exact two_pow_le hrow (Nat.le_refl _)
    by_cases hnear : row < low + 2 ^ level row
    · have hblock := length_descent_of_block hfull hnear
      omega
    · have hhop : hop row low = row - 2 ^ level row := by
        refine hop_eq hfull (Nat.not_lt.1 hnear) fun j hj hlong => ?_
        exact absurd ((two_pow_dvd_iff hrow).1 hj) (Nat.not_le.2 hlong)
      have hnext : 2 ^ (level row + 1) ∣ hop row low := by
        rw [hhop]
        refine two_pow_succ_dvd_sub hfull fun hlonger => ?_
        exact Nat.not_succ_le_self _ ((two_pow_dvd_iff hrow).1 hlonger)
      have hrest := ih hnext (Nat.lt_trans (hop_lt hlow) hhigh) hbits
      rw [descent_of_lt hlow, List.length_cons]
      omega

theorem length_descent_le (high low : Nat) : (descent high low).length ≤ 2 * high.size := by
  have hlength : (descent high low).length ≤ (high.size - 0) + high.size :=
    length_descent_of_dvd (by simp) (Nat.lt_size_self high) (Nat.zero_le _)
  omega

end Length

inductive Leads (low : Nat) : (high : Nat) → List Nat → Prop where
  | stop : Leads low low [low]
  | link {high next : Nat} {rows : List Nat} :
      next ∈ references high → Leads low next rows → Leads low high (high :: rows)

namespace Leads

variable {rows : List Nat}

theorem low_le (h : Leads low high rows) : low ≤ high := by
  induction h with
  | stop => exact Nat.le_refl low
  | link hlink _ ih => exact Nat.le_trans ih (Nat.le_of_lt (lt_of_mem_references hlink))

theorem head?_eq (h : Leads low high rows) : rows.head? = some high := by
  cases h <;> rfl

theorem high_mem (h : Leads low high rows) : high ∈ rows :=
  List.mem_of_head? h.head?_eq

theorem low_mem (h : Leads low high rows) : low ∈ rows := by
  induction h with
  | stop => simp
  | link _ _ ih => exact List.mem_cons_of_mem _ ih

/-- A way down that starts between a row and its hop comes through the hop: links from in between
do not lead below it, since the links are nested. -/
theorem through_hop {start : Nat} (h : Leads low start rows) (hlow : low < high)
    (hstart : hop high low ≤ start) (hhigh : start ≤ high) :
    ∃ rest, rest ⊆ rows ∧ Leads low (hop high low) rest := by
  have hleast := hop_isLeast hlow
  induction h with
  | stop =>
    rw [Nat.le_antisymm hstart hleast.1.2]
    exact ⟨[low], List.Subset.refl _, .stop⟩
  | @link start next rows hlink hrest ih =>
    by_cases hthere : hop high low = start
    · rw [hthere]
      exact ⟨start :: rows, List.Subset.refl _, .link hlink hrest⟩
    · have hnext : hop high low ≤ next := by
        by_cases hfirst : start = high
        · exact hleast.2 ⟨hfirst ▸ hlink, hrest.low_le⟩
        · exact le_of_passed_over hleast.1.1 hlink (by omega) (by omega)
      have hbelow := lt_of_mem_references hlink
      obtain ⟨rest, hsub, hleads⟩ := ih hnext (by omega)
      exact ⟨rest, List.subset_cons_of_subset start hsub, hleads⟩

end Leads

theorem descent_subset {rows : List Nat} (h : Leads low high rows) : descent high low ⊆ rows := by
  induction high using descent_induct low generalizing rows with
  | stop row hlow =>
    rw [descent_of_le hlow]
    exact List.nil_subset rows
  | next row hlow ih =>
    obtain ⟨rest, hsub, hleads⟩ :=
      h.through_hop hlow (Nat.le_of_lt (hop_lt hlow)) (Nat.le_refl row)
    rw [descent_of_lt hlow]
    exact List.cons_subset.2 ⟨h.high_mem, List.Subset.trans (ih hleads) hsub⟩

theorem leads_descent (h : low ≤ high) : Leads low high (descent high low ++ [low]) := by
  induction high using descent_induct low with
  | stop row hlow =>
    rw [descent_of_le hlow, Nat.le_antisymm hlow h]
    exact .stop
  | next row hlow ih =>
    rw [descent_of_lt hlow]
    exact .link (hop_spec hlow).1 (ih (hop_spec hlow).2)

section Chain

variable {P : Nat → Prop}

def LinkFrom (P : Nat → Prop) (m n : Nat) : Prop := P m ∧ n ∈ references m

theorem exists_leads (h : Relation.ReflTransGen (LinkFrom P) high low) :
    ∃ rows, Leads low high rows ∧ ∀ n ∈ rows, n ≠ low → P n := by
  induction h using Relation.ReflTransGen.head_induction_on with
  | refl => exact ⟨[low], .stop, fun n hn hne => absurd (List.mem_singleton.1 hn) hne⟩
  | @head m next hlink _ ih =>
    obtain ⟨rows, hleads, hrows⟩ := ih
    refine ⟨m :: rows, .link hlink.2 hleads, fun n hn hne => ?_⟩
    rcases List.mem_cons.1 hn with rfl | hn
    · exact hlink.1
    · exact hrows n hn hne

theorem of_mem_descent (h : Relation.ReflTransGen (LinkFrom P) high low)
    (hn : n ∈ descent high low) : P n := by
  obtain ⟨rows, hleads, hrows⟩ := exists_leads h
  exact hrows n (descent_subset hleads hn) (Nat.ne_of_gt (descent_bounds hn).1)

theorem chain_mono {Q : Nat → Prop} (h : ∀ n, P n → Q n)
    (chain : Relation.ReflTransGen (LinkFrom P) high low) :
    Relation.ReflTransGen (LinkFrom Q) high low :=
  Relation.ReflTransGen.mono (fun _ _ hlink => ⟨h _ hlink.1, hlink.2⟩) _ _ chain

theorem chain_descent (h : low ≤ high) :
    Relation.ReflTransGen (LinkFrom (· ∈ descent high low)) high low := by
  induction high using descent_induct low with
  | stop row hlow => rw [Nat.le_antisymm hlow h]
  | next row hlow ih =>
    rw [descent_of_lt hlow]
    refine .head ⟨List.mem_cons_self, (hop_spec hlow).1⟩ ?_
    exact chain_mono (fun _ => List.mem_cons_of_mem row) (ih (hop_spec hlow).2)

end Chain

theorem descent_descending (high low : Nat) : (descent high low).Pairwise (· > ·) := by
  induction high using descent_induct low with
  | stop row hlow =>
    rw [descent_of_le hlow]
    exact List.Pairwise.nil
  | next row hlow ih =>
    rw [descent_of_lt hlow, List.pairwise_cons]
    exact ⟨fun n hn => Nat.lt_of_le_of_lt (descent_bounds hn).2 (hop_lt hlow), ih⟩

theorem descent_lowest (h : low ≤ high) : (descent high low ++ [low]).IsChain
    fun row next => IsLeast {r | r ∈ references row ∧ low ≤ r} next := by
  induction high using descent_induct low with
  | stop row hlow =>
    rw [descent_of_le hlow]
    exact List.isChain_singleton low
  | next row hlow ih =>
    have hle := (hop_spec hlow).2
    rw [descent_of_lt hlow, List.cons_append, List.isChain_cons, (leads_descent hle).head?_eq]
    refine ⟨fun next hnext => ?_, ih hle⟩
    rw [← Option.mem_some.1 hnext]
    exact hop_isLeast hlow

end SkipChain.Skip

namespace SkipChain.Checked

variable {high low row level : Nat}

theorem linkAt_eq (h : row < Word.count64) (hrow : row ≠ 0) (hlevel : level ≤ Skip.level row) :
    linkAt row level = some (row - 2 ^ level) := by
  have hbound := Skip.level_lt h
  have hle := Skip.two_pow_le hrow hlevel
  rw [linkAt, Word.bit?, if_pos (by omega)]
  simp [Word.sub?, Nat.one_shiftLeft, hle]

theorem levelDown_of_le (h : row < Word.count64) (hlevel : level ≤ Skip.level row)
    (hpassed : ∀ j, level < j → j ≤ Skip.level row → row < low + 2 ^ j)
    (hfits : low + 2 ^ level ≤ row) :
    levelDown row low level = some level ∧ linkAt row level = some (Skip.hop row low) := by
  have hpos := Nat.two_pow_pos level
  have hrow : row ≠ 0 := by omega
  have hlink := linkAt_eq h hrow hlevel
  have hhop : Skip.hop row low = row - 2 ^ level :=
    Skip.hop_eq ((Skip.two_pow_dvd_iff hrow).2 hlevel) hfits fun j hj hlonger =>
      hpassed j hlonger ((Skip.two_pow_dvd_iff hrow).1 hj)
  have hstays : ¬row - 2 ^ level < low := by omega
  refine ⟨?_, hhop ▸ hlink⟩
  cases level <;>
  · rw [levelDown, hlink]
    exact if_neg hstays

theorem levelDown_spec (h : row < Word.count64) (hlow : low < row) (hlevel : level ≤ Skip.level row)
    (hpassed : ∀ j, level < j → j ≤ Skip.level row → row < low + 2 ^ j) :
    ∃ k, levelDown row low level = some k ∧ linkAt row k = some (Skip.hop row low) := by
  induction level with
  | zero => exact ⟨0, levelDown_of_le h hlevel hpassed (by omega)⟩
  | succ level ih =>
    by_cases hfits : low + 2 ^ (level + 1) ≤ row
    · exact ⟨level + 1, levelDown_of_le h hlevel hpassed hfits⟩
    · have hbelow : row - 2 ^ (level + 1) < low := by
        have hle := Skip.two_pow_le (by omega) hlevel
        omega
      obtain ⟨k, hk, hlink⟩ := ih (Nat.le_of_succ_le hlevel) fun j hlonger hj => by
        rcases Nat.eq_or_lt_of_le (Nat.succ_le_of_lt hlonger) with rfl | hlonger
        · exact Nat.not_le.1 hfits
        · exact hpassed j hlonger hj
      refine ⟨k, ?_, hlink⟩
      rw [levelDown, linkAt_eq h (by omega) hlevel]
      simp [hbelow, hk]

theorem descentWithin_eq {rounds : Nat} (h : high < Word.count64)
    (hrounds : (Skip.descent high low).length ≤ rounds) :
    descentWithin rounds high low = some (Skip.descent high low) := by
  induction rounds generalizing high with
  | zero =>
    have hnone := List.length_eq_zero_iff.1 (Nat.le_zero.1 hrounds)
    have hlow : high ≤ low := by
      by_contra hlow
      rw [Skip.descent_of_lt (Nat.not_le.1 hlow)] at hnone
      cases hnone
    rw [descentWithin, if_pos hlow, hnone]
    rfl
  | succ rounds ih =>
    rw [descentWithin]
    by_cases hlow : low < high
    · obtain ⟨level, hlevel, hlink⟩ := levelDown_spec h hlow (Nat.le_refl (Skip.level high))
        fun j hlonger hj => absurd hj (Nat.not_le.2 hlonger)
      rw [Skip.descent_of_lt hlow, List.length_cons] at hrounds
      have hrest := ih (Nat.lt_trans (Skip.hop_lt hlow) h) (Nat.le_of_succ_le_succ hrounds)
      rw [if_neg (Nat.not_le.2 hlow), hlevel, Skip.descent_of_lt hlow]
      simp [hlink, hrest]
    · rw [if_pos (Nat.not_lt.1 hlow), Skip.descent_of_le (Nat.not_lt.1 hlow)]
      rfl

end SkipChain.Checked

namespace SkipChain.Skip

structure Forced (high low : Nat) (rows : List Nat) : Prop where
  first : rows.head? = some high
  descending : rows.Pairwise (· > ·)
  above : ∀ n ∈ rows, low < n
  /-- After each row comes the lowest that it links to and that is not below `low`; `low` comes
  after the last. -/
  lowest : (rows ++ [low]).IsChain fun row next => IsLeast {r | r ∈ references row ∧ low ≤ r} next
  length_le : rows.length ≤ 2 * high.size
  leads : Leads low high (rows ++ [low])
  /-- Whatever leads down visits these rows, so nothing shorter does. -/
  visited : ∀ way, Leads low high way → rows ⊆ way ∧ (rows ++ [low]).length ≤ way.length

theorem forced_descent {high low : Nat} (h : low < high) : Forced high low (descent high low) where
  first := by rw [descent_of_lt h]; rfl
  descending := descent_descending high low
  above n hn := (descent_bounds hn).1
  lowest := descent_lowest (Nat.le_of_lt h)
  length_le := length_descent_le high low
  leads := leads_descent (Nat.le_of_lt h)
  visited way hway := by
    have hsubset : descent high low ++ [low] ⊆ way := by
      simp [descent_subset hway, hway.low_mem]
    have hdescending : (descent high low ++ [low]).Pairwise (· > ·) := by
      refine List.pairwise_append.2 ⟨descent_descending high low, List.pairwise_singleton _ _, ?_⟩
      intro n hn m hm
      rw [List.mem_singleton.1 hm]
      exact (descent_bounds hn).1
    refine ⟨descent_subset hway, ?_⟩
    exact (List.subperm_of_subset (hdescending.imp Nat.ne_of_gt) hsubset).length_le

/-- For rows of 64 bits the way down is found without leaving a word, in two rounds for each bit of
the high row. There is nothing to visit on the way to a row that is not below, and else there is no
choice and no shorter way. -/
theorem descent_forced {high : Nat} (hhigh : high < Word.count64) (low : Nat) :
    (∀ rounds, 2 * high.size ≤ rounds →
        Checked.descentWithin rounds high low = some (descent high low)) ∧
      (high ≤ low → descent high low = []) ∧
      (low < high → Forced high low (descent high low)) := by
  refine ⟨fun rounds hrounds => ?_, descent_of_le, forced_descent⟩
  exact Checked.descentWithin_eq hhigh ((length_descent_le high low).trans hrounds)

theorem descent_forced_steep :
    2 ^ 63 < Word.count64 ∧
      Checked.descentWithin 128 (2 ^ 63) (2 ^ 63 - 3) = some [2 ^ 63, 2 ^ 63 - 2] ∧
      Forced (2 ^ 63) (2 ^ 63 - 3) [2 ^ 63, 2 ^ 63 - 2] := by
  have hword : 2 ^ 63 < Word.count64 := by decide
  obtain ⟨hchecked, -, hforced⟩ := descent_forced hword (2 ^ 63 - 3)
  have hrows : descent (2 ^ 63) (2 ^ 63 - 3) = [2 ^ 63, 2 ^ 63 - 2] := by decide +kernel
  have hsize : (2 ^ 63).size = 64 := Nat.size_pow
  rw [hrows] at hchecked hforced
  exact ⟨hword, hchecked 128 (by omega), hforced (by decide)⟩

end SkipChain.Skip
