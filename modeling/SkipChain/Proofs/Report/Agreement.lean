import SkipChain.Proofs.Path.Soundness
import SkipChain.Proofs.Report.Checks
import SkipChain.Proofs.Report.Closure
/-!
How far the paths of a package agree when nothing is found wrong with them. They are compared with
what is authenticated and not with each other, so they may part above it.
-/
namespace SkipChain

namespace Package

variable {H : Hash} {trusted : Option TrustedRow} {k : Package} {p : Path} {n : Nat}
  {r : LedgerReport}

def PathsAgree (k : Package) (rows : Nat → Prop) : Prop :=
  ∀ p ∈ k.paths, ∀ q ∈ k.paths, ∀ n, rows n →
    ∀ hash hash', p.hash? n = some hash → q.hash? n = some hash' → hash = hash'

def LinksTo (k : Package) (m n : Nat) : Prop := ∃ p ∈ k.paths, p.LinksTo m n ∧ p.contains n

/-- The rows that hang below the row that authentication starts from, across all paths. -/
def Hangs (trusted : Option TrustedRow) (k : Package) (n : Nat) : Prop :=
  ∃ root hash, root? trusted k.paths = some (root, hash) ∧
    Relation.ReflTransGen k.LinksTo root n

def PathsPass (H : Hash) (trusted : Option TrustedRow) (k : Package) : Prop :=
  ∀ p ∈ k.paths, checkPath H trusted p = .ok () ∧ linkFailures (k.authenticated H trusted) p = []

theorem pathsPass_of_isValid (h : k.verify H trusted = some r) (valid : r.isValid) :
    k.PathsPass H trusted := by
  obtain ⟨checks, -, rfl⟩ := verify_eq_some_iff.1 h
  exact (failures_eq_nil_iff.1 (List.isEmpty_iff.1 valid)).1

namespace PathsPass

theorem verifiedPaths_eq (pass : k.PathsPass H trusted) : k.verifiedPaths H trusted = k.paths := by
  refine List.filter_eq_self.2 fun p hp => ?_
  rw [pathFailure?_eq_none_iff.2 (pass p hp).1, Option.isNone_none]

theorem hash?_eq (pass : k.PathsPass H trusted) (hp : p ∈ k.paths) {hash : Digest}
    (hknown : (k.authenticated H trusted).hashes.get? n = some hash) (hcontains : p.contains n) :
    p.hash? n = some hash := by
  obtain ⟨hagrees, _⟩ := linkFailures_eq_nil_iff.1 (pass p hp).2
  obtain ⟨e, he⟩ := Path.contains_iff.1 hcontains
  rw [hagrees n e he hash hknown, Path.hash?_of_entry he]

theorem hangs_of_known (pass : k.PathsPass H trusted)
    (hknown : (k.authenticated H trusted).hashes.contains n) : k.Hangs trusted n := by
  let P (a : Authenticated) := ∀ n hash, a.hashes.get? n = some hash → k.Hangs trusted n
  have hall : P (k.authenticated H trusted) := by
    rw [authenticated, pass.verifiedPaths_eq]
    refine Authenticated.learnAll_induct _ ?_ ?_
    · intro n hash hget
      exact ⟨n, hash, Authenticated.get?_start.1 hget, .refl⟩
    · intro p hp n e he a ha
      refine Authenticated.learnEntry_induct ha fun input hinput hn => ⟨ha, ?_⟩
      intro b r hash hr hhash _ hb m found hget
      rw [NatMap.get?_insert] at hget
      split at hget
      · next hm =>
        obtain ⟨root, start, hroot, hchain⟩ := ha n e.hash hn
        have hstep : p.LinksTo n r := ⟨Path.isExpanded_iff.2 ⟨e, input, he, hinput⟩, hr⟩
        rw [hm]
        exact ⟨root, start, hroot, hchain.tail ⟨p, hp, hstep, Path.contains_of_hash? hhash⟩⟩
      · exact hb m found hget
  obtain ⟨hash, hget⟩ := NatMap.contains_iff.1 hknown
  exact hall n hash hget

/-- All that hangs below the root is authenticated: an expanded row that is known has the known
hash in every path, so its links are followed. -/
theorem known_of_hangs (pass : k.PathsPass H trusted) (hangs : k.Hangs trusted n) :
    (k.authenticated H trusted).hashes.contains n := by
  obtain ⟨root, hash, hroot, hchain⟩ := hangs
  rw [← pass.verifiedPaths_eq] at hroot
  induction hchain with
  | refl => exact NatMap.contains_iff.2 ⟨hash, Authenticated.ofPaths_root hroot⟩
  | @tail m n _ step ih =>
    obtain ⟨p, hp, hlinks, hcontains⟩ := step
    obtain ⟨found, hknown⟩ := NatMap.contains_iff.1 ih
    have hrecorded := pass.hash?_eq hp hknown (Path.contains_of_isExpanded hlinks.1)
    obtain ⟨input, hexpands⟩ := Authenticated.exists_expands hlinks.1 (hrecorded.trans hknown.symm)
    rw [← pass.verifiedPaths_eq] at hp
    have hclosed := Authenticated.ofPaths_closed (root? trusted (k.verifiedPaths H trusted))
    exact (hexpands.settled hp (hclosed _)).links n hlinks.2 hcontains

theorem hangs_of_contains (pass : k.PathsPass H trusted) (hp : p ∈ k.paths)
    (hhigh : k.Hangs trusted p.high) (hcontains : p.contains n) : k.Hangs trusted n := by
  have rooted := (checkPath_eq_ok_iff.1 (pass p hp).1).2.1
  obtain ⟨root, hash, hroot, hchain⟩ := hhigh
  refine ⟨root, hash, hroot, ?_⟩
  have hreached := rooted.reaches hcontains
  induction hreached with
  | refl => exact hchain
  | @tail m n _ step ih =>
    exact (ih (Path.contains_of_isExpanded step.1)).tail ⟨p, hp, step, hcontains⟩

theorem pathsAgree_hangs (pass : k.PathsPass H trusted) : k.PathsAgree (k.Hangs trusted) := by
  intro p hp q hq n hangs hash hash' hpn hqn
  obtain ⟨found, hknown⟩ := NatMap.contains_iff.1 (pass.known_of_hangs hangs)
  rw [pass.hash?_eq hp hknown (Path.contains_of_hash? hpn)] at hpn
  rw [pass.hash?_eq hq hknown (Path.contains_of_hash? hqn)] at hqn
  rw [← Option.some.inj hpn, ← Option.some.inj hqn]

end PathsPass

end Package

namespace Verifier

/-- When nothing is found wrong, the paths agree on the rows that are authenticated. These are the
rows that hang below the root, and all rows of a path whose high row hangs there. So the paths agree
altogether if and only if they agree on the rows that do not hang below the root. -/
theorem paths_agree_iff (v : Verifier) {m : Morsel} {k : Package} (hk : k ∈ m.ledgers)
    {report : LedgerReport}
    (hreport : k.verify m.algorithm.digest (v.trusted? k.name) = some report)
    (clean : report.isValid) :
    let trusted := v.trusted? k.name
    (∀ whole, v.verify m = some whole → report ∈ whole.ledgers) ∧
      (∀ n, (k.authenticated m.algorithm.digest trusted).hashes.contains n ↔ k.Hangs trusted n) ∧
      k.PathsAgree (k.Hangs trusted) ∧
      (∀ p ∈ k.paths, k.Hangs trusted p.high → ∀ n, p.contains n → k.Hangs trusted n) ∧
      (k.PathsAgree (fun _ => True) ↔ k.PathsAgree fun n => ¬k.Hangs trusted n) := by
  intro trusted
  have pass := Package.pathsPass_of_isValid hreport clean
  have hagree : k.PathsAgree (k.Hangs trusted) := pass.pathsAgree_hangs
  refine ⟨fun whole hwhole => ?_, fun n => ⟨pass.hangs_of_known, pass.known_of_hangs⟩, hagree,
    fun p hp hhigh n hcontains => pass.hangs_of_contains hp hhigh hcontains, ?_⟩
  · obtain ⟨found, hmem, hfound⟩ := exists_report hwhole hk
    obtain rfl := Option.some.inj (hreport.symm.trans hfound)
    exact hmem
  constructor
  · intro hall p hp q hq n _
    exact hall p hp q hq n trivial
  · intro hrest p hp q hq n _
    by_cases hangs : k.Hangs trusted n
    · exact hagree p hp q hq n hangs
    · exact hrest p hp q hq n hangs

def second : TrustedRow := ⟨2, .filled 2⟩

def goesOn (third : Digest) : Path where
  low := 2
  high := 4
  targets := .empty
  entries := .ofList [(2, ⟨second.hash, none⟩), (3, ⟨third, none⟩),
    (4, ⟨Hash.link Sha256.hash third [third, second.hash, .sentinel], some third⟩)]
  faultless := rfl

def forked : Package :=
  { Package.new (LedgerInfo.new .log "log") with
    paths := [goesOn (.filled 3), goesOn (.filled 9)] }

theorem paths_agree_iff_forked :
    ∃ report, forked.verify Sha256.hash (some second) = some report ∧ report.isValid ∧
      forked.Hangs (some second) 2 ∧ forked.PathsAgree (forked.Hangs (some second)) := by
  have evaluated : (forked.verify Sha256.hash (some second)).any LedgerReport.isValid ∧
      (forked.authenticated Sha256.hash (some second)).hashes.contains 2 := by decide +kernel
  obtain ⟨report, hreport, valid⟩ := (Option.any_eq_true _ _).1 evaluated.1
  obtain ⟨_, hknown, hagree, _⟩ := (new.trust "log" second).paths_agree_iff
    (show forked ∈ (⟨.sha256, none, none, [forked]⟩ : Morsel).ledgers from List.mem_cons_self)
    hreport valid
  exact ⟨report, hreport, valid, (hknown 2).1 evaluated.2, hagree⟩

theorem forked_not_found :
    (∃ whole, (new.trust "log" second).verify ⟨.sha256, none, none, [forked]⟩ = some whole ∧
        whole.isValid) ∧
      ¬forked.PathsAgree fun _ => True := by
  refine ⟨(Option.any_eq_true _ _).1 (by decide +kernel), fun hagree => ?_⟩
  have hthird := hagree _ List.mem_cons_self _ (List.mem_cons_of_mem _ List.mem_cons_self) 3
    trivial (.filled 3) (.filled 9) rfl rfl
  exact absurd hthird (by decide)

end Verifier

end SkipChain
