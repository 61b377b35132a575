import SkipChain.Proofs.Journal.Transparency
import SkipChain.Proofs.Ledger.Inputs
import SkipChain.Proofs.Table.Redaction
/-!
What a disclosure does not show. Of two journals that are alike in all that is to be shown and have
the same ledger, the same package is made, whatever else they keep: of hidden cells it tells the
hashes, and nothing of rows that are not shown, of salts to come, and of the paths remembered.
-/
namespace SkipChain

namespace Row

/-- Rows that differ in nothing but the cells of the listed columns, and there not in the hashes. -/
structure AlikeBut (H : Hash) (columns : List Nat) (r r' : Row) : Prop where
  size_eq : r.size = r'.size
  shown : ∀ k c c', r.cells[k]? = some c → r'.cells[k]? = some c' → k ∉ columns → c = c'
  hidden : ∀ k c c', r.cells[k]? = some c → r'.cells[k]? = some c' → k ∈ columns →
    c.hash H = c'.hash H

variable {H : Hash} {columns : List Nat} {r r' : Row}

theorem redact_eq_iff : r.redact H columns = r'.redact H columns ↔ r.AlikeBut H columns r' := by
  constructor
  · intro h
    have hcell : ∀ k c c', r.cells[k]? = some c → r'.cells[k]? = some c' →
        (if k ∈ columns then c.redact H else c) = if k ∈ columns then c'.redact H else c' := by
      intro k c c' hc hc'
      have hsame := congrArg (fun s : Row => s.cells[k]?) h
      simpa only [getElem?_redact, hc, hc', Option.map_some, Option.some.injEq] using hsame
    refine ⟨?_, fun k c c' hc hc' hk => ?_, fun k c c' hc hc' hk => ?_⟩
    · rw [← length_redact, h, length_redact]
    · simpa only [if_neg hk] using hcell k c c' hc hc'
    · have hsame := hcell k c c' hc hc'
      rw [if_pos hk, if_pos hk] at hsame
      rw [← Cell.hash_redact, hsame, Cell.hash_redact]
  · intro alike
    apply ext_getElem?
    intro k
    rw [getElem?_redact, getElem?_redact]
    rcases Nat.lt_or_ge k r.size with hk | hk
    · have hc := List.getElem?_eq_getElem (l := r.cells) hk
      have hc' := List.getElem?_eq_getElem (l := r'.cells) (alike.size_eq ▸ hk)
      rw [hc, hc', Option.map_some, Option.map_some]
      split
      · next hmem => rw [Cell.redact, Cell.redact, alike.hidden k _ _ hc hc' hmem]
      · next hmem => rw [alike.shown k _ _ hc hc' hmem]
    · have hk' : r'.size ≤ k := alike.size_eq ▸ hk
      rw [List.getElem?_eq_none hk, List.getElem?_eq_none hk']

instance (H : Hash) (columns : List Nat) (r r' : Row) : Decidable (r.AlikeBut H columns r') :=
  decidable_of_iff _ redact_eq_iff

end Row

namespace Disclosure

open Journal (Action)

/-- Two journals have the same ledger inputs, and alike what a disclosure shows: metadata,
attestations, and of the rows that are asked for all but what the redacted columns hide. -/
structure Alike (d : Disclosure) (i j : Journal) : Prop where
  info : i.info = j.info
  algorithm : i.algorithm = j.algorithm
  inputs : i.ledger.inputs = j.ledger.inputs
  attestations : i.attestations = j.attestations
  rows : ∀ n ∈ d.rows, Option.Rel (Row.AlikeBut i.algorithm.digest d.redacted)
    (i.rows.get? n) (j.rows.get? n)

variable {d : Disclosure} {i j : Journal} {α β : Type} {x y : Action α} {f g : α → Action β}

theorem Alike.sourceRows_eq (alike : d.Alike i j) : d.sourceRows i = d.sourceRows j := by
  have hrows : ∀ n ∈ (NatSet.ofList d.rows).toList, n ∈ d.rows := fun n hn => NatSet.mem_ofList.1 hn
  unfold sourceRows
  generalize (NatSet.ofList d.rows).toList = ns at hrows
  induction ns with
  | nil => rfl
  | cons n ns ih =>
    rw [List.mapM_cons, List.mapM_cons, ih fun k hk => hrows k (List.mem_cons_of_mem n hk)]
    have hrow := alike.rows n (hrows n List.mem_cons_self)
    generalize i.rows.get? n = found at hrow ⊢
    generalize j.rows.get? n = found' at hrow ⊢
    cases hrow with
    | none => rfl
    | some halike =>
      dsimp only
      rw [← alike.algorithm, Row.redact_eq_iff.2 halike]

theorem Alike.textRows_eq (alike : d.Alike i j) : d.textRows i = d.textRows j := by
  rw [textRows, textRows, Journal.name, Journal.name, alike.info]

structure Twins (d : Disclosure) (i j : Journal) : Prop where
  left : i.Sound
  right : j.Sound
  alike : d.Alike i j

theorem Twins.ledger_eq (twins : d.Twins i j) : i.ledger = j.ledger :=
  twins.left.reachable.linked.eq_of_inputs_eq twins.right.reachable.linked twins.alike.algorithm
    twins.alike.inputs

theorem Twins.size_eq (twins : d.Twins i j) : i.size = j.size :=
  congrArg Ledger.size twins.ledger_eq

def Agree (d : Disclosure) (x y : Action α) : Prop :=
  ∀ i j, d.Twins i j →
    (∃ a i' j', x i = .ok a i' ∧ y j = .ok a j' ∧ d.Twins i' j') ∨
      ∃ e i' j', x i = .error e i' ∧ y j = .error e j'

namespace Agree

theorem pure (a : α) : d.Agree (pure a) (pure a) :=
  fun i j twins => .inl ⟨a, i, j, rfl, rfl, twins⟩

theorem throw (e : Error) : d.Agree (throw e : Action α) (throw e) :=
  fun i j _ => .inr ⟨e, i, j, rfl, rfl⟩

theorem result (result : Except Error α) :
    d.Agree (ofExcept result : Action α) (ofExcept result) := by
  cases result with
  | ok a => exact .pure a
  | error e => exact .throw e

theorem bind (h : d.Agree x y) (hnext : ∀ a, d.Agree (f a) (g a)) :
    d.Agree (x >>= f) (y >>= g) := by
  intro i j twins
  rcases h i j twins with ⟨a, i', j', hx, hy, twins'⟩ | ⟨e, i', j', hx, hy⟩
  · rw [run_bind_ok hx, run_bind_ok hy]
    exact hnext a i' j' twins'
  · exact .inr ⟨e, i', j', run_bind_error hx, run_bind_error hy⟩

theorem get_bind {f g : Journal → Action β} (h : ∀ i j, d.Twins i j → d.Agree (f i) (g j)) :
    d.Agree (get >>= f) (get >>= g) :=
  fun i j twins => h i j twins i j twins

theorem map (f : α → β) (h : d.Agree x y) : d.Agree (f <$> x) (f <$> y) := by
  rw [map_eq_pure_bind, map_eq_pure_bind]
  exact h.bind fun a => .pure (f a)

theorem ite {p : Prop} [Decidable p] {x' y' : Action α} (hyes : d.Agree x y)
    (hno : d.Agree x' y') : d.Agree (if p then x else x') (if p then y else y') := by
  split
  · exact hyes
  · exact hno

theorem mapM {γ : Type} {step : γ → Action α} (h : ∀ c, d.Agree (step c) (step c)) (cs : List γ) :
    d.Agree (cs.mapM step) (cs.mapM step) := by
  induction cs with
  | nil => exact .pure []
  | cons c cs ih =>
    rw [List.mapM_cons]
    exact (h c).bind fun a => ih.bind fun as => .pure (a :: as)

theorem path (r : PathRequest) : d.Agree (Journal.path r) (Journal.path r) := by
  intro i j twins
  obtain ⟨paths, hi, hpath⟩ := twins.left.path_sound r
  obtain ⟨paths', hj, hpath'⟩ := twins.right.path_sound r
  rw [show r.build i.ledger = r.build j.ledger from congrArg r.build twins.ledger_eq] at hpath
  rw [hpath, hpath']
  have alike := twins.alike
  cases r.build j.ledger with
  | ok p =>
    exact .inl ⟨p, _, _, rfl, rfl, hi, hj, alike.info, alike.algorithm, alike.inputs,
      alike.attestations, alike.rows⟩
  | error e => exact .inr ⟨.ledger e, _, _, rfl, rfl⟩

theorem choice (c : PathChoice) : d.Agree c.path c.path := by
  cases c with
  | inclusion n => exact path ⟨.ofList [n], 0, n⟩
  | consistency m n => exact path ⟨.ofList [m, n], m, n⟩
  | custom targets low high => exact path ⟨.ofList targets, low, high⟩
  | state =>
    apply get_bind
    intro i j twins
    rw [twins.size_eq]
    exact path _

theorem package (d : Disclosure) : d.Agree d.package d.package := by
  apply (mapM choice d.paths).bind
  intro paths
  apply get_bind
  intro i j twins
  have alike := twins.alike
  rw [alike.sourceRows_eq]
  apply (result _).bind
  intro rows
  dsimp only
  rw [alike.attestations, alike.textRows_eq, alike.info,
    twins.size_eq]
  generalize (if d.attestations then j.attestations else []) = attested
  apply (result _).bind
  intro spelled
  apply ite
  · exact bind (.pure []) fun covering => .pure _
  · exact bind (.map List.singleton (path _)) fun covering => .pure _

theorem disclose (m : Morsel) (d : Disclosure) : d.Agree (m.disclose d) (m.disclose d) := by
  apply get_bind
  intro i j twins
  rw [Journal.name, Journal.name, twins.alike.info, twins.alike.algorithm]
  apply ite
  · exact bind (.throw _) fun _ => bind (package d) fun p => .result _
  · exact bind (package d) fun p => .result _

end Agree

end Disclosure

namespace Morsel

variable {i j : Journal} {d : Disclosure}

/-- Journals that are alike for a disclosure hand over the same, or are refused for the same reason.
What else they retain, the values and salts behind hidden cells, the salts for values to come and
the paths remembered make no difference. -/
theorem gather_alike (hi : i.Reachable) (hj : j.Reachable) (alike : d.Alike i j) (m : Morsel) :
    m.gather d i = m.gather d j := by
  rcases Disclosure.Agree.disclose m d i j ⟨hi.sound, hj.sound, alike⟩ with
    ⟨m', i', j', hdisclose, hdisclose', -⟩ | ⟨e, i', j', hdisclose, hdisclose'⟩ <;>
    rw [gather, gather, hdisclose, hdisclose']

end Morsel

def Journal.owned : Journal :=
  (forgetful.appendRow ⟨[.ofString "atlas", .ofString "first edition"]⟩).appendRow
    ⟨[.ofString "novel"]⟩

/-- The same rows as somebody knows them who was never told what the column holds, nor the novel. -/
def Journal.borrowed : Journal :=
  (forgetful.appendRow ⟨[.ofString "atlas",
      (Cell.ofString "first edition").redact Algorithm.sha256.digest]⟩).appendInput
    (Row.hash Algorithm.sha256.digest ⟨[.ofString "novel"]⟩)

theorem Morsel.gather_alike_borrowed :
    ∃ d : Disclosure, d.Alike .owned .borrowed ∧
      (new .sha256).gather d .owned = (new .sha256).gather d .borrowed ∧
      ((new .sha256).gather d .owned).2.ledgers.length = 1 ∧
      Journal.owned.rows.get? 1 ≠ Journal.borrowed.rows.get? 1 ∧
      Journal.owned.rows.get? 2 ≠ Journal.borrowed.rows.get? 2 := by
  have hopened := Journal.opened_forgetful.reachable
  have alike : Disclosure.Alike ⟨[.state], [1], [1], true, none⟩ .owned .borrowed := by
    refine ⟨rfl, by decide +kernel, by decide +kernel, rfl, fun n hn => ?_⟩
    obtain rfl := List.mem_singleton.1 hn
    exact .some (by decide +kernel)
  exact ⟨_, alike, gather_alike ((hopened.appendRow _).appendRow _)
    ((hopened.appendRow _).appendInput _) alike _, by decide +kernel, by decide +kernel,
    by decide +kernel⟩

end SkipChain
