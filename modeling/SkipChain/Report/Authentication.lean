import SkipChain.Path.Basic
import SkipChain.Skip
/-!
Which rows the verified paths of a ledger authenticate. A row whose hash is known and that a path
expands with this hash vouches for its input hash and, through its links, for the hashes of the
rows that the path has for them.
-/
namespace SkipChain

structure Authenticated where
  hashes : NatMap Digest
  inputs : NatMap Digest
  deriving DecidableEq

namespace Authenticated

def start (root : Option (Nat × Digest)) : Authenticated := ⟨.ofList root.toList, .empty⟩

def size (a : Authenticated) : Nat := a.hashes.size + a.inputs.size

def learnHash (p : Path) (a : Authenticated) (row : Nat) : Authenticated :=
  if row = 0 ∨ a.hashes.contains row then a
  else match p.hash? row with
    | none => a
    | some hash => { a with hashes := a.hashes.insert row hash }

def learnEntry (p : Path) (a : Authenticated) (row : Nat) (entry : PathEntry) : Authenticated :=
  match entry.input with
  | none => a
  | some input =>
    if a.hashes.get? row = some entry.hash then
      (Skip.references row).foldl (learnHash p) { a with inputs := a.inputs.insert row input }
    else a

def learnPath (a : Authenticated) (p : Path) : Authenticated :=
  p.entries.toList.reverse.foldl (fun a e => learnEntry p a e.1 e.2) a

/-- Go through the paths until one pass learns of no more rows; at most `fuel` passes. -/
def learnAll (paths : List Path) : (fuel : Nat) → Authenticated → Authenticated
  | 0, a => a
  | fuel + 1, a =>
    let b := paths.foldl learnPath a
    if b.size = a.size then b else learnAll paths fuel b

/-- Enough passes: each but the last learns of a row of some entry, its hash or its input hash. -/
def passes (paths : List Path) : Nat := 2 * paths.foldl (fun n p => n + p.size) 0 + 1

def ofPaths (root : Option (Nat × Digest)) (paths : List Path) : Authenticated :=
  learnAll paths (passes paths) (start root)

variable {P : Authenticated → Prop} {a : Authenticated} {p : Path} {n : Nat} {e : PathEntry}
  {paths : List Path}

theorem get?_start {root : Option (Nat × Digest)} {hash : Digest} :
    (start root).hashes.get? n = some hash ↔ root = some (n, hash) := by
  cases root with
  | none => simp [start, NatMap.ofList, NatMap.insertAll]
  | some r =>
    change (NatMap.empty.insert r.1 r.2).get? n = some hash ↔ some r = some (n, hash)
    rw [NatMap.get?_insert, Option.some_inj, Prod.ext_iff]
    by_cases hn : n = r.1
    · simp [hn]
    · simp [hn, Ne.symm hn]

theorem learnHash_induct (h : P a)
    (hnew : ∀ hash, p.hash? n = some hash → a.hashes.get? n = none →
      P { a with hashes := a.hashes.insert n hash }) : P (learnHash p a n) := by
  unfold learnHash
  split
  · exact h
  · next hfresh =>
    cases hhash : p.hash? n with
    | none => exact h
    | some hash =>
      refine hnew hash hhash (Option.eq_none_iff_forall_ne_some.2 fun x hx => ?_)
      exact hfresh (.inr (NatMap.contains_iff.2 ⟨x, hx⟩))

/-- What is authenticated changes in two ways: a known row gets its input hash, and a row that it
links to gets the hash that it has in the same path. -/
theorem learnEntry_induct (h : P a)
    (hlearn : ∀ input, e.input = some input → a.hashes.get? n = some e.hash →
      P { a with inputs := a.inputs.insert n input } ∧
        ∀ b r hash, r ∈ Skip.references n → p.hash? r = some hash → b.hashes.get? r = none →
          P b → P { b with hashes := b.hashes.insert r hash }) :
    P (learnEntry p a n e) := by
  unfold learnEntry
  cases hinput : e.input with
  | none => exact h
  | some input =>
    simp only
    split
    · next hknown =>
      obtain ⟨hstart, hstep⟩ := hlearn input hinput hknown
      refine List.foldlRecOn _ _ hstart fun b hb r hr => ?_
      exact learnHash_induct hb fun hash hhash hnew => hstep b r hash hr hhash hnew hb
    · exact h

theorem pass_induct (h : P a)
    (hentry : ∀ p ∈ paths, ∀ n e, p.entry? n = some e → ∀ a, P a → P (learnEntry p a n e)) :
    P (paths.foldl learnPath a) := by
  refine List.foldlRecOn _ _ h fun b hb p hp => ?_
  refine List.foldlRecOn _ _ hb fun c hc entry hmem => ?_
  exact hentry p hp _ _ (NatMap.mem_toList_iff.1 (List.mem_reverse.1 hmem)) c hc

theorem learnAll_induct (fuel : Nat) (h : P a)
    (hentry : ∀ p ∈ paths, ∀ n e, p.entry? n = some e → ∀ a, P a → P (learnEntry p a n e)) :
    P (learnAll paths fuel a) := by
  induction fuel generalizing a with
  | zero => exact h
  | succ fuel ih =>
    rw [learnAll]
    split
    · exact pass_induct h hentry
    · exact ih (pass_induct h hentry)

end Authenticated

end SkipChain
