import SkipChain.Report.Authentication
/-!
Authentication pass by pass. A pass goes through the paths and tells whether it has learned of
anything; passes are made until one has not.
-/
namespace SkipChain.Authenticated

/-- What is authenticated at some point of a pass, and whether the pass has learned of any of it. -/
structure Pass where
  found : Authenticated
  learned : Bool
  deriving DecidableEq

namespace Pass

def absorbHash (p : Path) (s : Pass) (row : Nat) : Pass :=
  match p.hash? row with
  | none => s
  | some hash =>
    if s.found.hashes.contains row then s
    else ⟨{ s.found with hashes := s.found.hashes.insert row hash }, true⟩

/-- Take what an entry of a path vouches for. Its input hash is news if the row had none, even where
it takes the place of another one. -/
def absorbEntry (p : Path) (s : Pass) (row : Nat) (entry : PathEntry) : Pass :=
  match entry.input with
  | none => s
  | some input =>
    if s.found.hashes.get? row = some entry.hash then
      ((Skip.references row).filter (· ≠ 0)).foldl (absorbHash p)
        ⟨{ s.found with inputs := s.found.inputs.insert row input },
          s.learned || !s.found.inputs.contains row⟩
    else s

def absorb (s : Pass) (p : Path) : Pass :=
  p.entries.toList.reverse.foldl (fun s e => absorbEntry p s e.1 e.2) s

def through (paths : List Path) (a : Authenticated) : Pass := paths.foldl absorb ⟨a, false⟩

end Pass

def learnWithin (paths : List Path) : (rounds : Nat) → Authenticated → Option Authenticated
  | 0, _ => none
  | rounds + 1, a =>
    let pass := Pass.through paths a
    if pass.learned then learnWithin paths rounds pass.found else some pass.found

end SkipChain.Authenticated
