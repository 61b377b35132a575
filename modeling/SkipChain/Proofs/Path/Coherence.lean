import SkipChain.Proofs.Path.Soundness
/-!
What the check of a path decides. It looks at each row and the rows that link to it; since links
only go down, that settles what the high row leads to, and a path is accepted exactly if its rows
are these and no others.
-/
namespace SkipChain.Path

variable {H : Hash} {p : Path} {n : Nat}

theorem high_ne_zero (p : Path) : p.high ≠ 0 :=
  (PathParts.fault?_eq_none_iff.1 p.faultless).1.1

theorem target_ne_zero (h : n ∈ p.targets) : n ≠ 0 :=
  ((PathParts.fault?_eq_none_iff.1 p.faultless).2.1 n h).2.2

theorem contains_required_iff : (∀ r ∈ p.required, p.contains r) ↔
    p.contains p.high ∧ (∀ t ∈ p.targets, p.contains t) ∧ (p.low ≠ 0 → p.contains p.low) := by
  simp only [required, List.mem_filter, List.mem_append, List.mem_cons, List.not_mem_nil, or_false,
    decide_eq_true_eq, NatSet.mem_def]
  constructor
  · intro h
    exact ⟨h _ ⟨.inr (.inl rfl), p.high_ne_zero⟩, fun t ht => h t ⟨.inl ht, target_ne_zero ht⟩,
      fun hlow => h _ ⟨.inr (.inr rfl), hlow⟩⟩
  · rintro ⟨hhigh, htargets, hlow⟩ r ⟨ht | rfl | rfl, hr⟩
    · exact htargets r ht
    · exact hhigh
    · exact hlow hr

/-- A path with all that it must record, in which the links hold and every row hangs below the high
row, and that leaves out none of the rows that do. -/
structure Coherent (H : Hash) (p : Path) : Prop where
  high : p.contains p.high
  targets : ∀ t ∈ p.targets, p.contains t
  low : p.low ≠ 0 → p.contains p.low
  links : p.LinksHold H
  reached : ∀ n, p.contains n ↔ n ≠ 0 ∧ p.Reaches p.high n

theorem LinksHold.contains_reference {m : Nat} (links : p.LinksHold H) (h : p.LinksTo m n)
    (hn : n ≠ 0) : p.contains n := by
  obtain ⟨e, input, he, hinput⟩ := isExpanded_iff.1 h.1
  exact (links m e input he hinput).1 n h.2 hn

/-- The last link on the way to a row comes from an expanded row, whose links are all recorded. -/
theorem LinksHold.contains_of_reaches (links : p.LinksHold H) (hhigh : p.contains p.high)
    (hn : n ≠ 0) (h : p.Reaches p.high n) : p.contains n := by
  rcases h.cases_tail with rfl | ⟨m, -, hlink⟩
  · exact hhigh
  · exact links.contains_reference hlink hn

theorem coherent_iff : p.Coherent H ↔ p.LinksHold H ∧ p.Rooted := by
  constructor
  · intro h
    refine ⟨h.links, contains_required_iff.2 ⟨h.high, h.targets, h.low⟩, fun n hn hhigh => ?_⟩
    rcases ((h.reached n).1 hn).2.cases_tail with rfl | ⟨m, -, hlink⟩
    · exact absurd rfl hhigh
    · exact ⟨m, hlink⟩
  · rintro ⟨links, rooted⟩
    obtain ⟨hhigh, htargets, hlow⟩ := contains_required_iff.1 rooted.1
    refine ⟨hhigh, htargets, hlow, links, fun n => ⟨fun hn => ⟨?_, rooted.reaches hn⟩, ?_⟩⟩
    · obtain ⟨e, he⟩ := contains_iff.1 hn
      exact (entry_bounds he).1
    · rintro ⟨hn, hreaches⟩
      exact links.contains_of_reaches hhigh hn hreaches

theorem verifyClosure_eq_ok_iff : p.verifyClosure H = .ok () ↔ p.LinksHold H ∧ p.Rooted := by
  rw [← linkFlaw?_eq_none_iff, ← rootFlaw?_eq_none_iff, verifyClosure]
  cases p.linkFlaw? H <;> cases p.rootFlaw? <;> simp

/-- Exactly the coherent paths are accepted, and against a row's hash those of them that record this
hash for the row. -/
theorem accepted_iff_coherent (H : Hash) (p : Path) :
    (p.verifyClosure H = .ok () ↔ p.Coherent H) ∧
      ∀ hash row, p.verify H hash row = .ok () ↔ p.Coherent H ∧ p.hash? row = some hash := by
  refine ⟨verifyClosure_eq_ok_iff.trans coherent_iff.symm, fun hash row => ?_⟩
  rw [verify_eq_ok_iff, coherent_iff, and_assoc, and_comm (a := p.hash? row = some hash)]

end SkipChain.Path
