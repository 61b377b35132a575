import SkipChain.Journal.Packing
import SkipChain.Proofs.Journal.Operation
import SkipChain.Proofs.Morsel.RoundTrip
/-!
Disclosing is all or nothing. However far the steps get before one fails, the morsel stays as it is,
and so does all of the journal but the paths that it remembers.
-/
namespace SkipChain

open Journal (Action)

namespace Package

theorem foldl_withPath (ps : List Path) (k : Package) :
    ps.foldl withPath k = { k with paths := k.paths ++ ps } := by
  induction ps generalizing k with
  | nil => rw [List.append_nil, List.foldl_nil]
  | cons p ps ih => rw [List.foldl_cons, ih, withPath, List.append_assoc, List.singleton_append]

theorem foldl_withSourceRow (rs : List SourceRow) (k : Package) :
    rs.foldl withSourceRow k = { k with sourceRows := k.sourceRows ++ rs } := by
  induction rs generalizing k with
  | nil => rw [List.append_nil, List.foldl_nil]
  | cons r rs ih =>
    rw [List.foldl_cons, ih, withSourceRow, List.append_assoc, List.singleton_append]

end Package

namespace Packing

/-- How what is done at once and the steps that do it come out: both succeed as `spec` says, or both
fail with the same error. The journal remembers other paths at most, and the morsel is the same. -/
def Tracks {α β : Type} (m : Morsel) (j : Journal) (spec : α → β → Package → Prop)
    (made : EStateM.Result Error Journal α) (packed : EStateM.Result Error Packing β) : Prop :=
  ∃ paths, (∃ a b k, made = .ok a { j with paths } ∧ packed = .ok b ⟨m, { j with paths }, k⟩ ∧
      spec a b k) ∨
    ∃ e k, made = .error e { j with paths } ∧ packed = .error e ⟨m, { j with paths }, k⟩

namespace Tracks

variable {α β γ δ : Type} {m : Morsel} {i j : Journal} {s : Packing} {k : Package}
  {paths : Cache PathRequest Path} {spec : α → β → Package → Prop} {spec' : γ → δ → Package → Prop}
  {made : Action α} {packed : Step β} {f : α → Action γ} {g : β → Step δ}

theorem ok {a : α} {b : β} (h : spec a b k) :
    Tracks m j spec (.ok a { j with paths }) (.ok b ⟨m, { j with paths }, k⟩) :=
  ⟨paths, .inl ⟨a, b, k, rfl, rfl, h⟩⟩

theorem error (e : Error) :
    Tracks m j spec (.error e { j with paths }) (.error e ⟨m, { j with paths }, k⟩) :=
  ⟨paths, .inr ⟨e, k, rfl, rfl⟩⟩

theorem bind (h : Tracks m j spec (made i) (packed s))
    (hnext : ∀ paths a b k, spec a b k →
      Tracks m j spec' (f a { j with paths }) (g b ⟨m, { j with paths }, k⟩)) :
    Tracks m j spec' ((made >>= f) i) ((packed >>= g) s) := by
  obtain ⟨paths, ⟨a, b, k, hmade, hpacked, hspec⟩ | ⟨e, k, hmade, hpacked⟩⟩ := h
  · rw [run_bind_ok hmade, run_bind_ok hpacked]
    exact hnext paths a b k hspec
  · rw [run_bind_error hmade, run_bind_error hpacked]
    exact error e

theorem get_bind {f : Journal → Action α} {r : EStateM.Result Error Packing β}
    (h : Tracks m j spec (f i i) r) : Tracks m j spec ((get >>= f) i) r := h

theorem map {f : α → γ} {spec' : γ → β → Package → Prop} (h : Tracks m j spec (made i) (packed s))
    (hspec : ∀ a b k, spec a b k → spec' (f a) b k) :
    Tracks m j spec' ((made >>= fun a => pure (f a)) i) (packed s) := by
  obtain ⟨paths, ⟨a, b, k, hmade, hpacked, h⟩ | ⟨e, k, hmade, hpacked⟩⟩ := h
  · rw [run_bind_ok hmade, hpacked]
    exact ok (hspec a b k h)
  · rw [run_bind_error hmade, hpacked]
    exact error e

end Tracks

variable (d : Disclosure) (m : Morsel) (j : Journal) (paths : Cache PathRequest Path) (k : Package)

theorem addPath_tracks (c : PathChoice) : Tracks m j (fun p _ k' => k' = k.withPath p)
    (c.path { j with paths }) (addPath c ⟨m, { j with paths }, k⟩) := by
  have hstep : addPath c ⟨m, { j with paths }, k⟩ =
    (ask c.path >>= fun p => fill (·.withPath p)) ⟨m, { j with paths }, k⟩ := rfl
  obtain ⟨paths', ⟨p, hpath⟩ | ⟨e, hpath⟩⟩ := c.path_cases { j with paths }
  · have hask : ask c.path ⟨m, { j with paths }, k⟩ = .ok p ⟨m, { j with paths := paths' }, k⟩ := by
      rw [ask, hpath]
    rw [hstep, run_bind_ok hask, hpath]
    exact .ok rfl
  · have hask : ask c.path ⟨m, { j with paths }, k⟩ =
        .error e ⟨m, { j with paths := paths' }, k⟩ := by
      rw [ask, hpath]
    rw [hstep, run_bind_error hask, hpath]
    exact .error e

theorem addPaths_track (cs : List PathChoice) :
    Tracks m j (fun ps _ k' => k' = ps.foldl .withPath k)
      (cs.mapM PathChoice.path { j with paths }) (cs.forM addPath ⟨m, { j with paths }, k⟩) := by
  induction cs generalizing paths k with
  | nil => exact .ok rfl
  | cons c cs ih =>
    have hstep : (c :: cs).forM addPath ⟨m, { j with paths }, k⟩ =
      (addPath c >>= fun _ => cs.forM addPath) ⟨m, { j with paths }, k⟩ := rfl
    rw [List.mapM_cons, hstep]
    apply (addPath_tracks m j paths k c).bind
    rintro paths p _ _ rfl
    exact (ih paths (k.withPath p)).map fun _ _ _ h => h

theorem addRow_eq (columns : List Nat) (n : Nat) : addRow columns n ⟨m, j, k⟩ =
    match j.rows.get? n with
    | some row => .ok ⟨⟩ ⟨m, j, k.withSourceRow ⟨n, row.redact j.algorithm.digest columns⟩⟩
    | none => .error (.rowNotRetained n) ⟨m, j, k⟩ := by
  rw [addRow, run_get_bind]
  dsimp only
  cases j.rows.get? n <;> rfl

theorem addRows_track : Tracks m j (fun rs _ k' => k' = rs.foldl .withSourceRow k)
    ((ofExcept (d.sourceRows { j with paths }) : Action (List SourceRow)) { j with paths })
    ((NatSet.ofList d.rows).toList.forM (addRow d.redacted) ⟨m, { j with paths }, k⟩) := by
  unfold Disclosure.sourceRows
  generalize (NatSet.ofList d.rows).toList = ns
  induction ns generalizing k with
  | nil => exact .ok rfl
  | cons n ns ih =>
    have hstep : (n :: ns).forM (addRow d.redacted) ⟨m, { j with paths }, k⟩ =
      (addRow d.redacted n >>= fun _ => ns.forM (addRow d.redacted)) ⟨m, { j with paths }, k⟩ := rfl
    have hadd := addRow_eq m { j with paths } k d.redacted n
    rw [List.mapM_cons, hstep]
    dsimp only at hadd ih ⊢
    cases hrow : j.rows.get? n with
    | none =>
      rw [hrow] at hadd
      rw [run_bind_error hadd]
      exact .error _
    | some row =>
      rw [hrow] at hadd
      rw [run_bind_ok hadd]
      -- only the rows still to come may be missing
      have hmade (x : Except Error (List SourceRow)) (r : SourceRow) (i : Journal) :
          (ofExcept (Except.ok r >>= fun r => x >>= fun rs => pure (r :: rs)) : Action _) i =
            ((ofExcept x : Action _) >>= fun rs => pure (r :: rs)) i := by
        cases x <;> rfl
      rw [hmade]
      exact (ih _).map fun _ _ _ h => h

theorem addAttestations_eq (wanted : Bool) (hnone : k.attestations = []) :
    addAttestations wanted ⟨m, j, k⟩ =
      .ok ⟨⟩ ⟨m, j, { k with attestations := if wanted then j.attestations else [] }⟩ := by
  cases wanted with
  | true => rfl
  | false =>
    rw [← hnone]
    rfl

theorem addText_tracks (hnone : k.rawText = none) :
    Tracks m j (fun rows rows' k' => rows' = rows ∧ k' = { k with rawText := d.rawText })
      ((ofExcept (d.textRows { j with paths }) : Action (List Nat)) { j with paths })
      (addText d.rawText ⟨m, { j with paths }, k⟩) := by
  unfold Disclosure.textRows
  cases d.rawText with
  | none =>
    apply Tracks.ok
    exact ⟨rfl, by rw [← hnone]⟩
  | some text =>
    rw [addText, run_get_bind]
    dsimp only
    cases j.info.parsing with
    | none => exact .error _
    | some parsing =>
      dsimp only
      cases parsing.rows text.bytes text.first with
      | none => exact .error _
      | some found =>
        cases found with
        | error e => exact .error _
        | ok rows => exact .ok ⟨rfl, rfl⟩

theorem addCovering_tracks (rows : List Nat) : Tracks m j (fun made _ k => k = made)
    ((do
      let proven := k.sourceRows.map SourceRow.row ++
        k.attestations.map RowAttestation.row ++ rows
      let covering ← if proven.isEmpty then pure []
        else List.singleton <$> Journal.path ⟨.ofList proven, 0, j.size⟩
      return { k with paths := k.paths ++ covering } : Action Package) { j with paths })
    (addCovering rows ⟨m, { j with paths }, k⟩) := by
  dsimp only
  generalize hproven : k.sourceRows.map SourceRow.row ++
    k.attestations.map RowAttestation.row ++ rows = proven
  have hstep : addCovering rows ⟨m, { j with paths }, k⟩ = (if ¬proven.isEmpty then
      addPath (.custom proven 0 j.size) else pure ⟨⟩ : Step Unit) ⟨m, { j with paths }, k⟩ := by
    subst hproven
    rfl
  rw [hstep]
  by_cases hnone : proven.isEmpty
  · rw [if_pos hnone, if_neg (not_not_intro hnone)]
    apply Tracks.ok
    rw [List.append_nil]
  · rw [if_neg hnone, if_pos hnone, map_eq_pure_bind, bind_assoc]
    simp only [pure_bind]
    exact (addPath_tracks m j paths k (.custom proven 0 j.size)).map fun _ _ _ h => h

theorem assemble_tracks : Tracks m j (fun made _ k => k = made) (d.package j)
    (assemble d (start m j)) := by
  apply (addPaths_track m j j.paths (.new j.info) d.paths).bind
  rintro paths ps _ _ rfl
  rw [Package.foldl_withPath]
  -- the journal is read once from here on, and what is read of it are not the remembered paths
  apply Tracks.get_bind
  apply (addRows_track d m j paths _).bind
  rintro paths rs _ _ rfl
  rw [Package.foldl_withSourceRow, run_bind_ok (addAttestations_eq _ _ _ _ rfl)]
  dsimp only [Package.new, List.nil_append]
  generalize (if d.attestations = true then j.attestations else []) = attested
  refine (addText_tracks d m j paths _ rfl).bind ?_
  rintro paths _ rows _ ⟨rfl, rfl⟩
  exact addCovering_tracks m j paths ⟨j.info, ps, rs, d.rawText, attested⟩ rows

theorem close_eq (s : Packing) : close s = match s.morsel.add s.package with
    | .ok morsel => .ok ⟨⟩ { s with morsel }
    | .error e => .error (.morsel e) s := by
  have hstep : close s = (do
      ofExcept (s.package.validate.mapError .morsel)
      if (s.morsel.ledger? s.package.name).isSome then
        throw (.morsel (.duplicateName s.package.name))
      modify fun t =>
        { t with morsel := { t.morsel with ledgers := t.morsel.ledgers ++ [t.package] } }
        : Step Unit) s := rfl
  rw [hstep, Morsel.add]
  cases s.package.validate with
  | error e => rfl
  | ok _ =>
    by_cases hname : (s.morsel.ledger? s.package.name).isSome
    · simp only [hname]
      rfl
    · simp only [hname]
      rfl

theorem perform_cases : ∃ paths,
    (∃ m' k, m.disclose d j = .ok m' { j with paths } ∧
      perform d (start m j) = .ok ⟨⟩ ⟨m', { j with paths }, k⟩) ∨
    ∃ e k, m.disclose d j = .error e { j with paths } ∧
      perform d (start m j) = .error e ⟨m, { j with paths }, k⟩ := by
  have hdisclose : m.disclose d j = (if j.algorithm ≠ m.algorithm then do
        throw (.algorithmMismatch j.name m.algorithm j.algorithm)
        d.package >>= fun k => ofExcept ((m.add k).mapError .morsel)
      else d.package >>= fun k => ofExcept ((m.add k).mapError .morsel) : Action Morsel) j := rfl
  have hperform : perform d (start m j) = (if j.algorithm ≠ m.algorithm then do
        throw (.algorithmMismatch j.name m.algorithm j.algorithm)
        fill fun _ => .new j.info
        assemble d
        close
      else do
        fill fun _ => .new j.info
        assemble d
        close : Step Unit) (start m j) := rfl
  have hfill : (fill (fun _ => .new j.info) >>= fun _ => assemble d >>= fun _ => close)
      (start m j) = (assemble d >>= fun _ => close) (start m j) := rfl
  rw [hdisclose, hperform]
  by_cases halgorithm : j.algorithm ≠ m.algorithm
  · rw [if_pos halgorithm, if_pos halgorithm]
    exact ⟨j.paths, .inr ⟨_, .new j.info, rfl, rfl⟩⟩
  rw [if_neg halgorithm, if_neg halgorithm, hfill]
  obtain ⟨paths, ⟨_, _, k, hpackage, hassemble, rfl⟩ | ⟨e, k, hpackage, hassemble⟩⟩ :=
    assemble_tracks d m j
  · rw [run_bind_ok hpackage, run_bind_ok hassemble, close_eq]
    dsimp only
    cases hadd : m.add k with
    | ok m' => exact ⟨paths, .inl ⟨m', k, rfl, rfl⟩⟩
    | error e => exact ⟨paths, .inr ⟨.morsel e, k, rfl, rfl⟩⟩
  · exact ⟨paths, .inr ⟨e, k, run_bind_error hpackage, run_bind_error hassemble⟩⟩

variable {m j} {s : Packing} {e : Error}

theorem perform_eq_ok (h : perform d (start m j) = .ok ⟨⟩ s) :
    (∃ paths, s.journal = { j with paths }) ∧
      ∃ k i, d.package j = .ok k i ∧ m.add k = .ok s.morsel := by
  obtain ⟨paths, ⟨m', k, hdisclose, hperform⟩ | ⟨e, k, -, hperform⟩⟩ := perform_cases d m j
  · cases hperform.symm.trans h
    obtain ⟨-, made, hpackage, hadd⟩ := Morsel.disclose_eq_ok hdisclose
    exact ⟨⟨paths, rfl⟩, made, _, hpackage, hadd⟩
  · cases hperform.symm.trans h

theorem perform_error (h : perform d (start m j) = .error e s) :
    (∃ paths, s.journal = { j with paths }) ∧ s.morsel = m := by
  obtain ⟨paths, ⟨m', k, -, hperform⟩ | ⟨e, k, -, hperform⟩⟩ := perform_cases d m j
  · cases hperform.symm.trans h
  · cases hperform.symm.trans h
    exact ⟨⟨paths, rfl⟩, rfl⟩

theorem exists_perform_iff : (∃ s, perform d (start m j) = .ok ⟨⟩ s) ↔ (m.gather d j).1.isOk := by
  obtain ⟨paths, ⟨m', k, hdisclose, hperform⟩ | ⟨e, k, hdisclose, hperform⟩⟩ := perform_cases d m j
  · have hgather : m.gather d j = (.ok (), m') := by rw [Morsel.gather, hdisclose]
    rw [hgather]
    exact iff_of_true ⟨_, hperform⟩ rfl
  · have hgather : m.gather d j = (.error e, m) := by rw [Morsel.gather, hdisclose]
    rw [hgather]
    exact iff_of_false (fun ⟨s, hs⟩ => nomatch hperform.symm.trans hs) Bool.noConfusion

def Call.Adds (m : Morsel) (c : Call) : Prop :=
  ∃ j d s, c = add j d ∧ perform d (start m j) = .ok ⟨⟩ s

theorem Call.leave_assembled (h : m.Assembled) (c : Call) : (c.leave m).Assembled := by
  cases c with
  | notes text => exact h.notes text
  | assets bytes => exact h.assets bytes
  | add j d =>
    rw [leave]
    cases hperform : perform d (start m j) with
    | ok _ s =>
      obtain ⟨-, k, -, -, hadd⟩ := perform_eq_ok d hperform
      exact h.add hadd
    | error e s =>
      obtain ⟨-, rfl⟩ := perform_error d hperform
      exact h

theorem Call.leave_ledgers_ne_nil_iff (m : Morsel) (c : Call) :
    (c.leave m).ledgers ≠ [] ↔ m.ledgers ≠ [] ∨ c.Adds m := by
  cases c with
  | notes text => exact (or_iff_left fun ⟨_, _, _, h, _⟩ => nomatch h).symm
  | assets bytes => exact (or_iff_left fun ⟨_, _, _, h, _⟩ => nomatch h).symm
  | add j d =>
    rw [leave]
    cases hperform : perform d (start m j) with
    | ok _ s =>
      obtain ⟨-, k, -, -, hadd⟩ := perform_eq_ok d hperform
      obtain ⟨-, -, hmorsel⟩ := Morsel.add_eq_ok_iff.1 hadd
      exact iff_of_true (by simp [hmorsel]) (.inr ⟨j, d, s, rfl, hperform⟩)
    | error e s =>
      obtain ⟨-, rfl⟩ := perform_error d hperform
      refine (or_iff_left ?_).symm
      rintro ⟨_, _, s', ⟨⟩, h⟩
      exact nomatch hperform.symm.trans h

end Packing

namespace Morsel

open Packing

variable {m : Morsel}

theorem Assembled.after (h : m.Assembled) (calls : List Call) : (m.after calls).Assembled := by
  induction calls generalizing m with
  | nil => exact h
  | cons c calls ih => exact ih (Call.leave_assembled h c)

theorem after_ledgers_ne_nil_iff (m : Morsel) (calls : List Call) :
    (m.after calls).ledgers ≠ [] ↔ m.ledgers ≠ [] ∨
      ∃ before c later, calls = before ++ c :: later ∧ c.Adds (m.after before) := by
  induction calls generalizing m with
  | nil => simp [Morsel.after]
  | cons c calls ih =>
    change ((c.leave m).after calls).ledgers ≠ [] ↔ _
    rw [ih, Call.leave_ledgers_ne_nil_iff, or_assoc]
    apply or_congr_right
    constructor
    · rintro (hadds | ⟨before, c', later, rfl, hadds⟩)
      · exact ⟨[], c, calls, rfl, hadds⟩
      · exact ⟨c :: before, c', later, rfl, hadds⟩
    · rintro ⟨_ | ⟨c', before⟩, added, later, hcalls, hadds⟩
      · cases hcalls
        exact .inl hadds
      · cases hcalls
        exact .inr ⟨before, added, later, rfl, hadds⟩

theorem finish_eq_ok_iff {m' : Morsel} : m.finish = .ok m' ↔ m' = m ∧ m.validate = .ok () := by
  simp only [finish, bind_eq_ok, mapError_eq_ok, pure_eq_ok]
  constructor
  · rintro ⟨⟨⟩, hvalid, rfl⟩
    exact ⟨rfl, hvalid⟩
  · rintro ⟨rfl, hvalid⟩
    exact ⟨⟨⟩, hvalid, rfl⟩

/-- Whatever has been done to gather packages, disclosing from a journal is all or nothing. If it
fails, morsel and journal are as they were, the paths that the journal remembers apart. If it
succeeds, the morsel has one more package, in the last place, which is what the journal hands over;
it shows the rows that were asked for, each once and in ascending order. All the time the packages
are valid and have different names, so the morsel can be finished if and only if one of the calls
has added a package and assets come with notes. -/
theorem all_or_nothing {algorithm : Algorithm} {calls : List Call}
    (hm : m = (new algorithm).after calls) :
    (∀ (j : Journal) (d : Disclosure), j.Reachable →
      (∀ e s, perform d (start m j) = .error e s →
        s.morsel = m ∧ ∃ paths, s.journal = { j with paths }) ∧
      ∀ s, perform d (start m j) = .ok ⟨⟩ s →
        (∃ paths, s.journal = { j with paths }) ∧ ∃ k, d.Packages j k ∧
          s.morsel = { m with ledgers := m.ledgers ++ [k] } ∧
          (k.sourceRows.map SourceRow.row).Pairwise (· < ·) ∧
          ∀ n, n ∈ k.sourceRows.map SourceRow.row ↔ n ∈ d.rows) ∧
    m.names.Nodup ∧ (∀ k ∈ m.ledgers, k.validate = .ok ()) ∧
    ∀ m', m.finish = .ok m' ↔ m' = m ∧
      (∃ before j d later, calls = before ++ .add j d :: later ∧
        ∃ s, perform d (start ((new algorithm).after before) j) = .ok ⟨⟩ s) ∧
      (m.assets.isSome → m.notes.isSome) := by
  -- what holds all the time comes from what each call adds, not from the check at the end
  have sound : m.Sound := hm ▸ ((Assembled.new algorithm).after calls).sound
  refine ⟨fun j d reachable => ⟨fun e s h => (perform_error d h).symm, fun s h => ?_⟩,
    sound.distinct, sound.valid, fun m' => ?_⟩
  · obtain ⟨hjournal, k, i, hpackage, hadd⟩ := perform_eq_ok d h
    obtain ⟨-, -, hmorsel⟩ := add_eq_ok_iff.1 hadd
    obtain ⟨packages, -⟩ := Disclosure.package_eq_ok reachable hpackage
    obtain ⟨hrows, -⟩ := Disclosure.sourceRows_eq_ok packages.sourceRows
    refine ⟨hjournal, k, packages, hmorsel, ?_, ?_⟩
    · rw [hrows]
      exact (NatSet.ofList d.rows).ascending
    · rw [hrows]
      exact fun n => NatSet.mem_ofList
  · have hadds : m.ledgers ≠ [] ↔ ∃ before j d later, calls = before ++ .add j d :: later ∧
        ∃ s, perform d (start ((new algorithm).after before) j) = .ok ⟨⟩ s := by
      rw [hm, after_ledgers_ne_nil_iff, or_iff_right fun h => h rfl]
      constructor
      · rintro ⟨before, _, later, hcalls, j, d, s, rfl, h⟩
        exact ⟨before, j, d, later, hcalls, s, h⟩
      · rintro ⟨before, j, d, later, hcalls, s, h⟩
        exact ⟨before, _, later, hcalls, j, d, s, rfl, h⟩
    rw [finish_eq_ok_iff, sound.validate_eq_ok_iff, hadds]

def stocked : Journal :=
  (Journal.forgetful.appendRow ⟨[.ofString "atlas"]⟩).appendRow ⟨[.ofString "novel"]⟩

def twoRows : Disclosure := ⟨[.state], [2, 1, 2], [], true, none⟩

def stocktaking : List Call :=
  [.add stocked ⟨[.state], [1, 3], [], true, none⟩, .notes "stock", .add stocked twoRows]

theorem all_or_nothing_stocktaking : ∃ m, m = (new .sha256).after stocktaking ∧
    m.finish = .ok m ∧ m.ledgers.map (·.sourceRows.map SourceRow.row) = [[1, 2]] ∧
    ∃ e s, perform twoRows (start m stocked) = .error e s ∧ s.morsel = m := by
  have hopened := Journal.opened_forgetful.reachable
  have reachable : stocked.Reachable := (hopened.appendRow _).appendRow _
  have hrows : ((new .sha256).after stocktaking).ledgers.map (·.sourceRows.map SourceRow.row) =
      [[1, 2]] := by decide +kernel
  have hadds : ∃ s, perform twoRows (start ((new .sha256).after (stocktaking.take 2)) stocked) =
      .ok ⟨⟩ s := (exists_perform_iff _).2 (by decide +kernel)
  have hrefuses : ¬∃ s, perform twoRows (start ((new .sha256).after stocktaking) stocked) =
      .ok ⟨⟩ s := fun h => absurd ((exists_perform_iff _).1 h) (by decide +kernel)
  obtain ⟨hadd, -, -, hfinish⟩ := all_or_nothing (m := (new .sha256).after stocktaking) rfl
  refine ⟨_, rfl, (hfinish _).2 ⟨rfl, ⟨stocktaking.take 2, stocked, twoRows, [], rfl, hadds⟩,
    by decide +kernel⟩, hrows, ?_⟩
  cases h : perform twoRows (start ((new .sha256).after stocktaking) stocked) with
  | ok _ s => exact absurd ⟨s, h⟩ hrefuses
  | error e s => exact ⟨e, s, rfl, ((hadd stocked twoRows reachable).1 e s h).1⟩

end Morsel

end SkipChain
