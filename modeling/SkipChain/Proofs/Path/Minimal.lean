import SkipChain.Proofs.Ledger.Inputs
import SkipChain.Proofs.Path.Coherence
import SkipChain.Proofs.Path.Completeness
import SkipChain.Proofs.Skip.Shortest
/-!
Paths record no more than they have to. Every way down by links comes through the rows of the
descent, so what proves that a high row continues a low one, whoever made it, has all rows of the
consistency path; and a path for more targets has all that one for fewer targets has.
-/
namespace SkipChain

structure PathEntry.Within (e e' : PathEntry) : Prop where
  hash : e'.hash = e.hash
  input : ∀ input, e.input = some input → e'.input = some input

def Path.Within (p q : Path) : Prop :=
  ∀ n e, p.entry? n = some e → ∃ e', q.entry? n = some e' ∧ e.Within e'

namespace Ledger

variable {H : Hash} {l : Ledger} {targets targets' : NatSet} {low high n : Nat} {p q : Path}

/-- An accepted path gets from its high row to its low row by links from rows that it expands, so it
expands all rows of the descent. -/
theorem expanded_of_coherent (coherent : q.Coherent H) (hlow : q.low ≠ 0)
    (hn : n ∈ Skip.descent q.high q.low) : q.isExpanded n := by
  have hreached : q.Reaches q.high q.low := ((coherent.reached q.low).1 (coherent.low hlow)).2
  exact Skip.of_mem_descent (P := fun n => q.isExpanded n) hreached hn

theorem descent_of_expandedRows (htargets : ∀ t ∈ targets, t = low ∨ t = high) (hlow : low ≠ 0)
    (hle : low ≤ high) (hn : n ∈ expandedRows targets low high) : n ∈ Skip.descent high low := by
  rcases mem_expandedRows.1 hn with ⟨lower, upper, hleg, hvisited⟩ | ⟨h0, -⟩
  · obtain ⟨hlower, hupper, hlt⟩ := hleg.spec
    have hends : ∀ s ∈ stops targets low high, s = low ∨ s = high := fun s hs => by
      rcases mem_stops.1 hs with rfl | rfl | hs
      · exact .inl (by omega)
      · exact .inr rfl
      · exact htargets s hs
    have hfirst := hends lower hlower
    have hlast := hends upper hupper
    obtain ⟨rfl, rfl⟩ : lower = low ∧ upper = high := by omega
    exact hvisited
  · exact absurd h0 hlow

theorem Built.within_coherent (built : Built l targets low high p)
    (htargets : ∀ t ∈ targets, t = low ∨ t = high) (hlow : low ≠ 0) (coherent : q.Coherent H)
    (hqlow : q.low = low) (hqhigh : q.high = high) :
    (p.contains n → q.contains n) ∧ (p.isExpanded n → q.isExpanded n) := by
  have hexpanded : ∀ m ∈ expandedRows targets low high, q.isExpanded m := fun m hm => by
    have hvisited := descent_of_expandedRows htargets hlow built.spans.low_le hm
    rw [← hqlow, ← hqhigh] at hvisited
    exact expanded_of_coherent coherent (hqlow ▸ hlow) hvisited
  refine ⟨fun hn => ?_, fun hn => hexpanded n (built.isExpanded_iff.1 hn)⟩
  rcases built.contains_iff.1 hn with hn | ⟨hn0, rfl | ⟨m, hm, hlink⟩⟩
  · exact Path.contains_of_isExpanded (hexpanded n hn)
  · rw [← hqlow]
    exact coherent.low (hqlow ▸ hlow)
  · exact coherent.links.contains_reference ⟨hexpanded m hm, hlink⟩ hn0

/-- A consistency path is built for any two rows of a ledger, and of all paths between them that are
accepted with any hash it has the fewest rows and expands the fewest: every other one has them too.
-/
theorem consistency_least {m n : Nat} (hm : 1 ≤ m) (hmn : m ≤ n) (hsize : n ≤ l.size) :
    ∃ p, l.consistency m n = .ok p ∧ (p.low = m ∧ p.high = n) ∧
      (l.Reachable → p.verifyClosure l.algorithm.digest = .ok ()) ∧
      ∀ (H : Hash) (q : Path), q.low = m → q.high = n → q.verifyClosure H = .ok () →
        ∀ row, (p.contains row → q.contains row) ∧ (p.isExpanded row → q.isExpanded row) := by
  have htargets : ∀ t ∈ targetSet [m, n], t = m ∨ t = n := fun t ht => by
    simpa using (mem_targetSet.1 ht).1
  have spans : Spans (targetSet [m, n]) m n := by
    refine ⟨by omega, hmn, fun t ht => ?_⟩
    have := htargets t ht
    omega
  obtain ⟨p, hp, built⟩ := path_of_spans spans hsize
  refine ⟨p, hp, ⟨built.low_eq, built.high_eq⟩, fun reachable => ?_, ?_⟩
  · exact Path.verifyClosure_eq_ok_iff.2 ⟨built.linksHold reachable.linked, built.rooted⟩
  · intro H q hlow hhigh accepted row
    have coherent := Path.coherent_iff.2 (Path.verifyClosure_eq_ok_iff.1 accepted)
    exact built.within_coherent htargets (by omega) coherent hlow hhigh

def eightRows : Ledger := .ofInputs .blake3 (List.replicate 8 (.filled 1))

theorem size_eightRows : eightRows.size = 8 := size_ofInputs _ _

/-- A made-up way from row 8 to row 3, by way of row 6 though row 8 links to row 4. -/
def detour : Path where
  low := 3
  high := 8
  targets := .empty
  entries :=
    let input : Digest := .filled 9
    let link := Hash.link Sha256.hash input
    let four := link [.filled 3, .filled 2, .sentinel]
    let six := link [.filled 5, four]
    .ofList [(2, ⟨.filled 2, none⟩), (3, ⟨.filled 3, none⟩), (4, ⟨four, some input⟩),
      (5, ⟨.filled 5, none⟩), (6, ⟨six, some input⟩), (7, ⟨.filled 7, none⟩),
      (8, ⟨link [.filled 7, six, four, .sentinel], some input⟩)]
  faultless := by decide

theorem consistency_least_detour :
    8 ≤ eightRows.size ∧ detour.verifyClosure Sha256.hash = .ok () ∧
      ∃ p, eightRows.consistency 3 8 = .ok p ∧
        (p.isExpanded 4 → detour.isExpanded 4) ∧ (p.contains 2 → detour.contains 2) := by
  have hsize : 8 ≤ eightRows.size := Nat.le_of_eq size_eightRows.symm
  have accepted : detour.verifyClosure Sha256.hash = .ok () := by decide +kernel
  obtain ⟨p, hp, -, -, hleast⟩ := consistency_least (m := 3) (by decide) (by decide) hsize
  have hwithin := hleast Sha256.hash detour rfl rfl accepted
  exact ⟨hsize, accepted, p, hp, (hwithin 4).2, (hwithin 2).1⟩

section Targets

theorem stops_mono (hsub : ∀ t ∈ targets, t ∈ targets') (hn : n ∈ stops targets low high) :
    n ∈ stops targets' low high :=
  mem_stops.2 ((mem_stops.1 hn).imp id (.imp id (hsub n)))

theorem chain_stops {lower upper : Nat} (hlower : lower ∈ stops targets low high)
    (hupper : upper ∈ stops targets low high) (hle : lower ≤ upper) :
    Relation.ReflTransGen (Skip.LinkFrom (· ∈ expandedRows targets low high)) upper lower := by
  induction upper using Nat.strongRecOn with
  | ind upper ih =>
    by_cases hsame : lower = upper
    · rw [hsame]
    · have hlt : lower < upper := by omega
      obtain ⟨next, hleg⟩ : ∃ next, Leg targets low high next upper :=
        exists_lower_neighbour (stops targets low high).ascending hupper hlower hlt
      obtain ⟨hnext, -, hbelow⟩ := hleg.spec
      have hbetween : lower ≤ next :=
        le_lower_neighbour (stops targets low high).ascending hleg hlower hlt
      refine .trans ?_ (ih next hbelow hnext hbetween)
      refine Skip.chain_mono (fun m hm => ?_) (Skip.chain_descent (Nat.le_of_lt hbelow))
      exact mem_expandedRows.2 (.inl ⟨next, upper, hleg, hm⟩)

/-- A further stop in between cuts a descent in two, which visit its rows all the same. -/
theorem expandedRows_mono (hsub : ∀ t ∈ targets, t ∈ targets')
    (hn : n ∈ expandedRows targets low high) : n ∈ expandedRows targets' low high := by
  rcases mem_expandedRows.1 hn with ⟨lower, upper, hleg, hvisited⟩ | hfirst
  · obtain ⟨hlower, hupper, hlt⟩ := hleg.spec
    refine Skip.of_mem_descent (chain_stops ?_ ?_ (Nat.le_of_lt hlt)) hvisited
    · exact stops_mono hsub hlower
    · exact stops_mono hsub hupper
  · exact mem_expandedRows.2 (.inr hfirst)

theorem within_entryOf? {e : PathEntry} (he : l.entryOf? false n = some e) (expanded : Bool) :
    ∃ e', l.entryOf? expanded n = some e' ∧ e.Within e' := by
  obtain ⟨r, hr, rfl⟩ := Option.map_eq_some_iff.1 he
  exact ⟨⟨r.hash, if expanded then some r.input else none⟩, by rw [entryOf?, hr]; rfl, rfl, nofun⟩

theorem builtEntry?_mono {expanded expanded' : NatSet} (hsub : ∀ m ∈ expanded, m ∈ expanded')
    {e : PathEntry} (he : l.builtEntry? expanded low n = some e) :
    ∃ e', l.builtEntry? expanded' low n = some e' ∧ e.Within e' := by
  unfold builtEntry? at he ⊢
  by_cases hn : n ∈ expanded
  · rw [if_pos hn] at he
    rw [if_pos (hsub n hn)]
    exact ⟨e, he, rfl, fun _ => id⟩
  · rw [if_neg hn] at he
    split at he
    · next hanchor =>
      have hanchor' : n ≠ 0 ∧ (n = low ∨ ∃ m ∈ expanded'.toList, n ∈ Skip.references m) :=
        ⟨hanchor.1, hanchor.2.imp id fun ⟨m, hm, hlink⟩ => ⟨m, hsub m hm, hlink⟩⟩
      by_cases hn' : n ∈ expanded'
      · rw [if_pos hn']
        exact within_entryOf? he true
      · rw [if_neg hn', if_pos hanchor']
        exact within_entryOf? he false
    · cases he

/-- What a path for some targets records, the path for more targets records too. If the latter is
built, so is the former. -/
theorem path_within {wanted wanted' : List Nat} (hsub : wanted ⊆ wanted')
    (hq : l.path wanted' low high = .ok q) : ∃ p, l.path wanted low high = .ok p ∧ p.Within q := by
  have built' := path_eq_ok_iff.1 hq
  have htargets : ∀ t ∈ targetSet wanted, t ∈ targetSet wanted' := fun t ht => by
    rw [mem_targetSet] at ht ⊢
    exact ⟨hsub ht.1, ht.2⟩
  have spans : Spans (targetSet wanted) low high :=
    ⟨built'.spans.high_pos, built'.spans.low_le, fun t ht => built'.spans.targets t (htargets t ht)⟩
  obtain ⟨p, hp, built⟩ := path_of_spans spans built'.high_le
  refine ⟨p, hp, fun n e he => ?_⟩
  rw [built.entry?_eq] at he
  rw [built'.entry?_eq]
  exact builtEntry?_mono (fun m => expandedRows_mono htargets) he

theorem path_within_eightRows :
    [4] ⊆ [5, 0, 4] ∧ ∃ q, eightRows.path [5, 0, 4] 2 8 = .ok q ∧
      ∃ p, eightRows.path [4] 2 8 = .ok p ∧ p.Within q := by
  have hsub : [4] ⊆ [5, 0, 4] := by decide
  have hsize : 8 ≤ eightRows.size := Nat.le_of_eq size_eightRows.symm
  have spans : Spans (targetSet [5, 0, 4]) 2 8 := by
    refine ⟨by decide, by decide, fun t ht => ?_⟩
    simp only [mem_targetSet, List.mem_cons, List.not_mem_nil, or_false] at ht
    omega
  obtain ⟨q, hq, -⟩ := path_of_spans spans hsize
  exact ⟨hsub, q, hq, path_within hsub hq⟩

end Targets

end Ledger

end SkipChain
