import Mathlib.Control.Monad.Basic
import Mathlib.Data.List.Induction
import SkipChain.Proofs.Ascending
import SkipChain.Proofs.Preimage
import SkipChain.Proofs.Report.Checks
/-!
What a valid report says about a trusted row. Trust goes by the names that the morsel gives: every
ledger with the name has to contain the row with the trusted hash, but no ledger need have the name.
-/
namespace SkipChain

namespace Verifier

variable {name : String} {t : TrustedRow} {m : Morsel}

def given (rows : List (String × TrustedRow)) : Verifier :=
  rows.foldl (fun v g => v.trust g.1 g.2) new

theorem trusted?_trust (v : Verifier) (name other : String) (t : TrustedRow) :
    (v.trust name t).trusted? other = if other = name then some t else v.trusted? other := by
  unfold trust trusted?
  rw [lookup_pair, lookup_filter_ne]
  split <;> rfl

theorem trusted?_given (rows : List (String × TrustedRow)) (name : String) :
    (given rows).trusted? name = rows.reverse.lookup name := by
  induction rows using List.reverseRecOn with
  | nil => rfl
  | append_singleton rows g ih =>
    have hlast : given (rows ++ [g]) = (given rows).trust g.1 g.2 := by
      rw [given, List.foldl_append]
      rfl
    rw [hlast, trusted?_trust, ih, List.reverse_append, List.reverse_singleton,
      List.singleton_append, lookup_pair]

theorem verify_given_unnamed {rows : List (String × TrustedRow)} (h : name ∉ m.names) :
    (given rows).verify m = (given (rows.filter (·.1 ≠ name))).verify m := by
  have htrusted : ∀ k ∈ m.ledgers,
      (given rows).trusted? k.name = (given (rows.filter (·.1 ≠ name))).trusted? k.name := by
    intro k hk
    have hother : k.name ≠ name := fun heq => h (List.mem_map.2 ⟨k, hk, heq⟩)
    rw [trusted?_given, trusted?_given, ← List.filter_reverse, lookup_filter_ne, if_neg hother]
  unfold verify
  rw [mapM_congr fun k hk => by rw [htrusted k hk]]

theorem trusted?_given_last {before after : List (String × TrustedRow)}
    (hlast : ∀ g ∈ after, g.1 ≠ name) :
    (given (before ++ (name, t) :: after)).trusted? name = some t := by
  have hnone : after.reverse.lookup name = none := by
    refine List.lookup_eq_none_iff.2 fun g hg => ?_
    simpa using Ne.symm (hlast g (List.mem_reverse.1 hg))
  rw [trusted?_given, List.reverse_append, List.reverse_cons, List.append_assoc,
    List.lookup_append, hnone, Option.none_or]
  exact List.lookup_cons_self

end Verifier

def Package.Upholds (k : Package) (t : TrustedRow) : Prop :=
  (∃ p ∈ k.paths, p.contains t.row) ∧
    ∀ p ∈ k.paths, p.contains t.row → p.hash? t.row = some t.hash

theorem Package.upholds_of_isValid {H : Hash} {k : Package} {t : TrustedRow} {r : LedgerReport}
    (h : k.verify H (some t) = some r) (valid : r.isValid) : k.Upholds t := by
  obtain ⟨checks, -, rfl⟩ := verify_eq_some_iff.1 h
  obtain ⟨hpaths, htrusted, _⟩ := failures_eq_nil_iff.1 (List.isEmpty_iff.1 valid)
  refine ⟨htrusted t rfl, fun p hp hcontains => ?_⟩
  exact (checkPath_eq_ok_iff.1 (hpaths p hp).1).2.2 t rfl hcontains

namespace Verifier

/-- In a valid report the trusted row of a ledger is upheld by every package with the ledger's name,
so it is upheld by one if and only if the morsel has the name at all. -/
theorem upheld_iff_named {before after : List (String × TrustedRow)} {name : String}
    {t : TrustedRow} {m : Morsel} (hlast : ∀ g ∈ after, g.1 ≠ name) {report : Report}
    (hreport : (given (before ++ (name, t) :: after)).verify m = some report)
    (valid : report.isValid) :
    (∀ k ∈ m.ledgers, k.name = name → k.Upholds t) ∧
      ((∃ k ∈ m.ledgers, k.name = name ∧ k.Upholds t) ↔ name ∈ m.names) := by
  have hupheld : ∀ k ∈ m.ledgers, k.name = name → k.Upholds t := by
    intro k hk hname
    obtain ⟨r, hr, hverify⟩ := exists_report hreport hk
    rw [hname, trusted?_given_last hlast] at hverify
    exact Package.upholds_of_isValid hverify (List.all_eq_true.1 valid r hr)
  refine ⟨hupheld, fun ⟨k, hk, hname, _⟩ => List.mem_map.2 ⟨k, hk, hname⟩, fun hname => ?_⟩
  obtain ⟨k, hk, hname⟩ := List.mem_map.1 hname
  exact ⟨k, hk, hname, hupheld k hk hname⟩

def firstRowOf (name : String) (input : Digest) : Morsel where
  algorithm := .sha256
  notes := none
  assets := none
  ledgers := [{ Package.new (LedgerInfo.new .log name) with
    paths := [{
      low := 0
      high := 1
      targets := .empty
      entries := .ofList [(1, ⟨Hash.link Sha256.hash input [.sentinel], some input⟩)]
      faultless := rfl }] }]

def trustedOrder : TrustedRow :=
  ⟨1, Hash.link Sha256.hash (.filled 1) [.sentinel]⟩

theorem upheld_iff_named_orders :
    ∃ report, (given [("orders", trustedOrder)]).verify (firstRowOf "orders" (.filled 1)) =
        some report ∧ report.isValid ∧
      ∃ k ∈ (firstRowOf "orders" (.filled 1)).ledgers,
        k.name = "orders" ∧ k.Upholds trustedOrder := by
  have evaluated : ((given [("orders", trustedOrder)]).verify
      (firstRowOf "orders" (.filled 1))).any Report.isValid := by decide +kernel
  obtain ⟨report, hreport, valid⟩ := (Option.any_eq_true _ _).1 evaluated
  have upheld := @upheld_iff_named [] [] "orders" trustedOrder _ (by simp) report hreport valid
  exact ⟨report, hreport, valid, upheld.2.2 List.mem_cons_self⟩

theorem renamed_not_refuted :
    (∃ report, (given [("orders", trustedOrder)]).verify (firstRowOf "orders" (.filled 9)) =
        some report ∧ report.isValid = false) ∧
      (∃ report, (given [("orders", trustedOrder)]).verify (firstRowOf "Orders" (.filled 9)) =
        some report ∧ report.isValid) ∧
      ¬∃ k ∈ (firstRowOf "Orders" (.filled 9)).ledgers,
        k.name = "orders" ∧ k.Upholds trustedOrder := by
  have evaluated : ((given [("orders", trustedOrder)]).verify
        (firstRowOf "orders" (.filled 9))).any (!·.isValid) ∧
      ((given [("orders", trustedOrder)]).verify
        (firstRowOf "Orders" (.filled 9))).any Report.isValid := by decide +kernel
  refine ⟨?_, (Option.any_eq_true _ _).1 evaluated.2, ?_⟩
  · obtain ⟨report, hreport, invalid⟩ := (Option.any_eq_true _ _).1 evaluated.1
    exact ⟨report, hreport, Bool.not_eq_true' _ ▸ invalid⟩
  · rintro ⟨k, hk, hname, _⟩
    rw [List.mem_singleton.1 hk] at hname
    exact absurd hname (by decide)

end Verifier

end SkipChain
