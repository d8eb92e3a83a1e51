/-
  SimplicialNash.Proofs.Refinement.CutShort
  ─────────────────────────────────────────
  **A solve that is cut short makes the first passes of one that is not.**

  A solve can be cut short by a limit on its passes (`Solver.withMaxPasses`) or by a
  caller who has seen enough.  Either way its passes are the first of those that the
  solve makes when nothing cuts it short, as long as the cut depends on the number of
  the pass only (`stages_take`); and as there is a last pass, the solve answers
  (`exists_solve_of_cut`).  Where both ways stop at the same number, the answers agree
  in all but the reason for which they stopped; even whether the solve has converged
  is the same, because the tolerance comes first among the reasons.

  Main statement, for every game with players, every normalized start, valid settings
  without time limit and without a limit on the passes, and every number of passes that
  can be counted: `solve_cutShort`.
-/
import SimplicialNash.Proofs.Refinement.Best
import SimplicialNash.Proofs.Walk.Budget

namespace SimplicialNash

/-! ## §1. Settings with a limit on the passes -/

/-- The settings with a limit on the passes are as valid as those without, if they allow
for one pass. -/
theorem Settings.error?_withMaxRefinements {settings : Settings} {k : UInt32}
    (h : settings.error? = none) (hk : k ≠ 0) :
    { settings with maxRefinements := some k }.error? = none := by
  have hlimit : ¬ some k = some 0 := fun he => hk (Option.some.inj he)
  unfold error? at h ⊢
  -- one defect after another is excluded
  split at h
  · cases h
  next hresize =>
  split at h
  · cases h
  next hleash =>
  split at h
  · cases h
  next tolerance hbound =>
  split at h
  · cases h
  next hpivots =>
  split at h
  · cases h
  have hbound' : { settings with maxRefinements := some k }.toleranceBound = .ok tolerance := hbound
  rw [if_neg hresize, if_neg hleash, hbound']
  dsimp only
  rw [if_neg hpivots, if_neg hlimit]
  exact h

namespace Solver

variable {s s' : Solver} {g : Game} {settings : Settings} {clock clock' : Clock}
  {start : Profile} {keep keep' keepGoing : PassReport → Bool} {limit n : Nat}
  {progress next : Progress} {r : PassReport} {reports : List PassReport} {a : Answer}

/-- The solver with a limit on its passes. -/
def withMaxPasses (s : Solver) (k : UInt32) : Solver :=
  { s with settings := { s.settings with maxRefinements := some k } }

theorem ofGame_withMaxPasses (h : ofGame g settings = .ok s) {k : UInt32} (hk : k ≠ 0) :
    ofGame g { settings with maxRefinements := some k } = .ok (s.withMaxPasses k) := by
  obtain ⟨herror, hbound, rfl, rfl⟩ := ofGame_eq_ok_iff.mp h
  exact ofGame_eq_ok_iff.mpr ⟨Settings.error?_withMaxRefinements herror hk, hbound, rfl, rfl⟩

/-! ## §2. Reasons to stop -/

/-- A limit on the passes stops what would stop anyway, and the pass it speaks of. -/
theorem stop?_withMaxPasses (hfree : s.settings.maxRefinements = none) (k : UInt32)
    (r : PassReport) (keep : Bool) :
    ((s.withMaxPasses k).stop? r keep).isSome
      = ((s.stop? r keep).isSome || decide (k.toNat ≤ r.pass)) := by
  unfold stop? withMaxPasses
  rw [hfree]
  dsimp only [Option.any]
  split_ifs <;> simp_all

/-- So does a caller who has seen enough after so many passes. -/
theorem stop?_caller (s : Solver) (n : Nat) (r : PassReport) :
    (s.stop? r (decide (r.pass < n))).isSome
      = ((s.stop? r true).isSome || decide (n ≤ r.pass)) := by
  unfold stop?
  split_ifs <;> simp_all

/-- Without a deadline the clock has no say in what a pass leads to. -/
theorem nextPass_congr (h : s.limits.deadline = none) (clock clock' : Clock)
    (progress : Progress) : s.nextPass clock progress = s.nextPass clock' progress := by
  have hrun := runPass_congr h s.game progress.incumbent.profile (s.nextMesh progress)
    s.settings.leashLength.toNat progress.incumbent clock clock'
  show (runPass s.game progress.incumbent.profile (s.nextMesh progress)
    s.settings.leashLength.toNat progress.incumbent s.limits clock >>= _) = _
  rw [hrun]
  rfl

/-! ## §3. The first passes -/

theorem passes_of_nextPass (h : s.nextPass clock progress = .ok (r, next)) :
    r.pass = progress.passes + 1 ∧ next.passes = progress.passes + 1 := by
  obtain ⟨o, -, rfl, rfl⟩ := nextPass_cases h
  exact ⟨rfl, rfl⟩

/-- **A cut by number.**  Two solvers that make the same passes, of which the second also
stops after pass number `n`. -/
theorem stagesFrom_take
    (hpass : ∀ progress, s'.nextPass clock' progress = s.nextPass clock progress)
    (hstop : ∀ r, (s'.stop? r (keep' r)).isSome
      = ((s.stop? r (keep r)).isSome || decide (n ≤ r.pass)))
    (hn : progress.passes < n) :
    s'.stagesFrom clock' keep' limit progress
      = (s.stagesFrom clock keep limit progress).take (n - progress.passes) := by
  induction limit generalizing progress with
  | zero => exact List.take_nil.symm
  | succ limit ih =>
    cases hfirst : s.nextPass clock progress with
    | error fault =>
      rw [stagesFrom, stagesFrom, hpass, hfirst]
      exact List.take_nil.symm
    | ok result =>
      obtain ⟨r, next⟩ := result
      obtain ⟨hnumber, hnext⟩ := passes_of_nextPass hfirst
      have hrest : n - progress.passes = n - next.passes + 1 := by omega
      rw [stagesFrom_succ hfirst, stagesFrom_succ ((hpass progress).trans hfirst), hrest,
        List.take_succ_cons]
      congr 1
      have hr := hstop r
      cases hs : s.stop? r (keep r) with
      | some reason =>
        -- both stop here
        rw [hs] at hr
        obtain ⟨reason', hs'⟩ := Option.isSome_iff_exists.mp hr
        rw [hs']
        exact List.take_nil.symm
      | none =>
        rw [hs] at hr
        rcases Nat.lt_or_ge next.passes n with hlt | hge
        · -- neither does
          have hs' : s'.stop? r (keep' r) = none := by
            rw [decide_eq_false (by omega)] at hr
            exact Option.not_isSome_iff_eq_none.mp (by rw [hr]; decide)
          rw [hs']
          exact ih hlt
        · -- only the second does, and nothing is left to take
          rw [decide_eq_true (by omega)] at hr
          obtain ⟨reason', hs'⟩ := Option.isSome_iff_exists.mp hr
          rw [hs', Nat.sub_eq_zero_of_le hge]
          rfl

/-- More passes may follow, but those there are stay the first. -/
theorem take_stagesFrom (h : n ≤ limit) :
    (s.stagesFrom clock keepGoing limit progress).take n
      = s.stagesFrom clock keepGoing n progress := by
  induction n generalizing limit progress with
  | zero => rfl
  | succ n ih =>
    obtain ⟨limit, rfl⟩ := Nat.exists_eq_add_of_lt h
    cases hpass : s.nextPass clock progress with
    | error fault =>
      rw [stagesFrom, stagesFrom, hpass]
      rfl
    | ok result =>
      obtain ⟨r, next⟩ := result
      rw [stagesFrom_succ hpass, stagesFrom_succ hpass, List.take_succ_cons]
      congr 1
      cases s.stop? r (keepGoing r) with
      | some reason => exact List.take_nil
      | none => exact ih (by omega)

theorem take_stages (h : n ≤ limit) :
    (s.stages start clock keepGoing limit).take n = s.stages start clock keepGoing n := by
  unfold stages
  split
  · exact List.take_nil
  · exact take_stagesFrom h

/-- **The first passes.**  Whoever cuts a solve short after pass number `n`, its passes are
the first `n` of those that it makes otherwise. -/
theorem stages_take (hgame : s'.game = s.game)
    (hpass : ∀ progress, s'.nextPass clock' progress = s.nextPass clock progress)
    (hstop : ∀ r, (s'.stop? r (keep' r)).isSome
      = ((s.stop? r (keep r)).isSome || decide (n ≤ r.pass)))
    (hpos : 0 < n) (hn : n ≤ limit) :
    s'.stages start clock' keep' limit = s.stages start clock keep n := by
  have hbegin : s'.begin start = s.begin start := by
    unfold begin
    rw [hgame]
  rw [← take_stages hn]
  unfold stages
  rw [hbegin]
  cases hs : s.begin start with
  | error e => exact List.take_nil.symm
  | ok progress =>
    obtain ⟨-, -, -, hpasses, -⟩ := begin_cases hs
    have hcut : s'.stagesFrom clock' keep' limit progress
        = (s.stagesFrom clock keep limit progress).take (n - progress.passes) :=
      stagesFrom_take hpass hstop (hpasses.symm ▸ hpos)
    rwa [hpasses] at hcut

/-! ## §4. Answers -/

/-- **A solve with a last pass answers.** -/
theorem exists_solve_of_stop (hs : IsOf g settings s) (hstart : IsSolveStart g start)
    (hpos : 0 < n) (hn : n ≤ maxPasses)
    (hstop : ∀ r, n ≤ r.pass → (s.stop? r (keepGoing r)).isSome = true) :
    ∃ done last reason, s.stages start clock keepGoing maxPasses = done ++ [last]
      ∧ s.stop? last.report (keepGoing last.report) = some reason
      ∧ s.solve start clock keepGoing
        = .ok ((done ++ [last]).map Stage.report, answer last.after reason) := by
  -- even with one more pass to spare there are no more than `n`
  have hlength : (s.stages start clock keepGoing (maxPasses + 1)).length ≤ n := by
    refine (length_stages_le (n := n - 1) fun done stage rest hstages hdone => ?_).trans (by omega)
    obtain ⟨hnumber, -⟩ := report_of_stages hstages
    obtain ⟨-, hafter⟩ := isOnCourse_of_stages hs hstart hstages
    have hpasses := hafter.passes_eq
    exact Option.isSome_iff_ne_none.mp (hstop _ (by omega))
  obtain ⟨done, last, reason, hstages, hreason⟩ :=
    exists_stop_of_length_stages_lt hs hstart (Nat.lt_succ_of_le (hlength.trans hn))
  have hsame : s.stages start clock keepGoing maxPasses = done ++ [last] := by
    rw [← hstages, ← take_stages (Nat.le_succ maxPasses)]
    exact List.take_of_length_le (hlength.trans hn)
  exact ⟨done, last, reason, hsame, hreason,
    solve_eq_ok_iff.mpr ⟨done, last, reason, hsame, hreason, rfl, rfl⟩⟩

/-- **A cut solve answers**, after passes that are the first of the solve that is not cut. -/
theorem exists_solve_of_cut (hs' : IsOf g settings s') (hstart : IsSolveStart g start)
    (hgame : s'.game = s.game)
    (hpass : ∀ progress, s'.nextPass clock' progress = s.nextPass clock progress)
    (hstop : ∀ r, (s'.stop? r (keep' r)).isSome
      = ((s.stop? r (keep r)).isSome || decide (n ≤ r.pass)))
    (hpos : 0 < n) (hn : n ≤ maxPasses) :
    ∃ done last reason, s.stages start clock keep n = done ++ [last]
      ∧ s'.stop? last.report (keep' last.report) = some reason
      ∧ s'.solve start clock' keep'
        = .ok ((done ++ [last]).map Stage.report, answer last.after reason) := by
  obtain ⟨done, last, reason, hstages, hreason, hsolve⟩ :=
    exists_solve_of_stop hs' hstart hpos hn fun r hr => by
      rw [hstop, decide_eq_true hr, Bool.or_true]
  exact ⟨done, last, reason, (stages_take hgame hpass hstop hpos hn).symm.trans hstages, hreason,
    hsolve⟩

/-- The labels that have been evaluated are those of the passes. -/
theorem pivots_of_stages {done rest : List Stage} {stage : Stage}
    (h : s.stages start clock keepGoing limit = done ++ stage :: rest) :
    stage.after.pivots = ((done ++ [stage]).map fun stage => stage.report.pivots).sum := by
  refine (stages_induction (motive := fun done progress =>
    progress.pivots = (done.map fun stage => stage.report.pivots).sum) ?_ ?_ h).2.2
  · intro progress hbegin
    obtain ⟨-, -, -, -, hpivots⟩ := begin_cases hbegin
    exact hpivots
  · intro done progress r next hinv hpass
    obtain ⟨o, -, rfl, rfl⟩ := nextPass_cases hpass
    rw [List.map_append, List.sum_append, ← hinv]
    rfl

/-- An answer has converged exactly if the report of the last pass meets the tolerance. -/
theorem converged_answer {reason : StopReason} {keep : Bool} (h : s.stop? r keep = some reason)
    (progress : Progress) :
    (answer progress reason).converged = decide (r.regret < s.tolerance) := by
  have hiff : s.stop? r keep = some .converged ↔ r.regret < s.tolerance := stop?_eq_converged_iff
  rw [h, Option.some_inj] at hiff
  unfold Answer.converged answer
  rw [Bool.eq_iff_iff, beq_iff_eq, decide_eq_true_iff]
  exact hiff

/-- From a start of another shape than the game's there is no solve. -/
theorem solve_of_shape_ne (h : start.shape ≠ s.game.shape) (clock : Clock)
    (keepGoing : PassReport → Bool) :
    s.solve start clock keepGoing
      = .error (.start (.shapeMismatch s.game.shape start.shape)) := by
  unfold solve begin
  rw [if_neg h]
  rfl

/-- **Solves cut short.**  From every normalized start, in every solve without time limit:
a limit of `k` passes and a caller who wants no more after pass number `k` lead to the same
reports, which are the first `k` of those made without limit and caller, or all of them if
there are fewer; and to answers that agree in profile, regret, counts and mesh, and in
whether the solve has converged.  Profile, regret and mesh are those of the last report, and
the labels evaluated are the sum over the reports.  From a start of another shape than the
game's there is no solve, cut short or not. -/
theorem solve_cutShort (hs : ofGame g settings = .ok s) (hplayers : g.shape ≠ [])
    (hstart : start.IsNormalized) (htime : settings.timeLimit = none)
    (hfree : settings.maxRefinements = none) {k : UInt32} (hk : k ≠ 0)
    (clock clock₁ clock₂ : Clock) :
    ∃ s₁, ofGame g { settings with maxRefinements := some k } = .ok s₁
      ∧ (start.shape ≠ g.shape →
        s.solve start clock (fun _ => true)
            = .error (.start (.shapeMismatch g.shape start.shape))
          ∧ s₁.solve start clock₁ (fun _ => true)
            = .error (.start (.shapeMismatch g.shape start.shape))
          ∧ s.solve start clock₂ (fun r => r.pass < k.toNat)
            = .error (.start (.shapeMismatch g.shape start.shape)))
      ∧ (start.shape = g.shape → ∃ reports a₁ a₂ last,
        s₁.solve start clock₁ (fun _ => true) = .ok (reports, a₁)
          ∧ s.solve start clock₂ (fun r => r.pass < k.toNat) = .ok (reports, a₂)
          ∧ (∀ limit, k.toNat ≤ limit →
            reports = ((s.stages start clock (fun _ => true) limit).map Stage.report).take k.toNat)
          ∧ (∀ all a, s.solve start clock (fun _ => true) = .ok (all, a) →
            reports = all.take k.toNat)
          ∧ a₁.profile = a₂.profile ∧ a₁.regret = a₂.regret ∧ a₁.passes = a₂.passes
          ∧ a₁.pivots = a₂.pivots ∧ a₁.finalMesh = a₂.finalMesh
          ∧ a₁.converged = a₂.converged
          ∧ reports.getLast? = some last ∧ a₁.profile = last.profile ∧ a₁.regret = last.regret
          ∧ a₁.finalMesh = last.mesh ∧ a₁.passes = reports.length
          ∧ a₁.pivots = (reports.map PassReport.pivots).sum) := by
  have hs₁ := ofGame_withMaxPasses hs hk
  have hof := isOf_of_ofGame hs
  have hof₁ := isOf_of_ofGame hs₁
  obtain rfl := hof.game_eq
  refine ⟨s.withMaxPasses k, hs₁, ?_, ?_⟩
  · intro hne
    exact ⟨solve_of_shape_ne hne clock _, solve_of_shape_ne (s := s.withMaxPasses k) hne clock₁ _,
      solve_of_shape_ne hne clock₂ _⟩
  intro hshape
  have hbegin : IsSolveStart s.game start := ⟨hplayers, hshape, hstart⟩
  have hpos : 0 < k.toNat := Nat.pos_of_ne_zero fun hzero => hk (UInt32.toNat_inj.mp hzero)
  have hmax : k.toNat ≤ maxPasses := Nat.le_pred_of_lt k.toNat_lt
  have hdeadline : s.limits.deadline = none := by
    unfold limits
    rw [hof.settings_eq, htime]
    rfl
  have hlimit : ∀ r, ((s.withMaxPasses k).stop? r true).isSome
      = ((s.stop? r true).isSome || decide (k.toNat ≤ r.pass)) := fun r =>
    stop?_withMaxPasses (hof.settings_eq ▸ hfree) k r true
  have hcaller := s.stop?_caller k.toNat
  -- both ways of stopping leave the first passes, so it is the same pass that is the last
  obtain ⟨done, last, reason₁, hstages, hreason₁, hsolve₁⟩ :=
    exists_solve_of_cut (s := s) hof₁ hbegin rfl (nextPass_congr hdeadline clock₁ clock) hlimit
      hpos hmax
  obtain ⟨done₂, last₂, reason₂, hstages₂, hreason₂, hsolve₂⟩ :=
    exists_solve_of_cut (s := s) hof hbegin rfl (nextPass_congr hdeadline clock₂ clock) hcaller
      hpos hmax
  obtain ⟨rfl, hlast⟩ := List.append_inj' (hstages₂.symm.trans hstages) rfl
  obtain rfl := List.singleton_inj.mp hlast
  have hreports : ∀ limit, k.toNat ≤ limit → (done₂ ++ [last₂]).map Stage.report
      = ((s.stages start clock (fun _ => true) limit).map Stage.report).take k.toNat := by
    intro limit hlimit
    rw [← List.map_take, take_stages hlimit, hstages]
  obtain ⟨-, hmesh, hregret, hprofile⟩ := report_of_stages hstages
  refine ⟨_, _, _, last₂.report, hsolve₁, hsolve₂, hreports, ?_, rfl, rfl, rfl, rfl, rfl, ?_, ?_,
    hprofile.symm, hregret.symm, hmesh.symm, ?_, ?_⟩
  · intro all a hall
    rw [reports_eq_map hall]
    exact hreports maxPasses hmax
  · rw [converged_answer hreason₁, converged_answer hreason₂]
    rfl
  · simp
  · rw [List.length_map, List.length_append]
    exact (isOnCourse_of_stages hof hbegin hstages).2.passes_eq
  · rw [List.map_map]
    exact pivots_of_stages hstages

/-- The last pass that is allowed for meets the tolerance. -/
theorem solve_cutShort_thirds :
    ∃ s₁ reports a₁ a₂,
      ofGame ClassicGame.matchingPennies.game.toGame { Settings.coarse with maxRefinements := some 3 }
          = .ok s₁
        ∧ s₁.solve thirds .stopped (fun _ => true) = .ok (reports, a₁)
        ∧ coarseSolver.solve thirds .stopped (fun r => r.pass < 3) = .ok (reports, a₂)
        ∧ reports.map PassReport.regret = [10 / 81, 28 / 729, 82 / 6561]
        ∧ a₂.profile.values = [41 / 81, 40 / 81, 40 / 81, 41 / 81] ∧ a₁.profile = a₂.profile
        ∧ a₁.passes = 3 ∧ a₁.pivots = 27 ∧ a₁.finalMesh = 1 / 81
        ∧ a₁.converged = true ∧ a₂.converged = true := by
  obtain ⟨s₁, hs₁, -, hmatching⟩ := solve_cutShort ofGame_coarse (by decide +kernel)
    isSolveStart_thirds.isNormalized rfl rfl (show (3 : UInt32) ≠ 0 by decide) .stopped .stopped
    .stopped
  obtain ⟨reports, a₁, a₂, last, hsolve₁, hsolve₂, -, -, hprofile, -, hpasses, hpivots, hmesh,
    hconverged, -⟩ := hmatching (by decide +kernel)
  have hsolve : coarseSolver.solve thirds .stopped (fun r => r.pass < 3)
      = .ok ([⟨1, 1 / 9, 10 / 81, ⟨[2, 2], ⟨#v[4 / 9, 5 / 9, 5 / 9, 4 / 9]⟩⟩, 9, .fullyLabeled⟩,
          ⟨2, 1 / 27, 28 / 729, ⟨[2, 2], ⟨#v[14 / 27, 13 / 27, 14 / 27, 13 / 27]⟩⟩, 9,
            .fullyLabeled⟩,
          ⟨3, 1 / 81, 82 / 6561, ⟨[2, 2], ⟨#v[41 / 81, 40 / 81, 40 / 81, 41 / 81]⟩⟩, 9,
            .fullyLabeled⟩],
        ⟨⟨[2, 2], ⟨#v[41 / 81, 40 / 81, 40 / 81, 41 / 81]⟩⟩, 82 / 6561, 3, 27, 1 / 81,
          .converged⟩) := by
    decide +kernel
  obtain ⟨rfl, rfl⟩ := Prod.mk.inj (Except.ok.inj (hsolve₂.symm.trans hsolve))
  exact ⟨s₁, _, a₁, _, hs₁, hsolve₁, hsolve, rfl, rfl, hprofile, hpasses, hpivots, hmesh,
    hconverged, rfl⟩

end Solver

end SimplicialNash
