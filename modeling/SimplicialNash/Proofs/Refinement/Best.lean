/-
  SimplicialNash.Proofs.Refinement.Best
  ─────────────────────────────────────
  **A solve answers with the earliest of the best profiles that it has seen.**

  Seen are the start and then, pass by pass, what the walk evaluates
  (`Stage.evaluated`).  Before and after every pass the incumbent is the first of those
  seen so far that have the smallest excess (`isFirstLeast_of_stages`), whatever the
  start and however a pass ends.  So regrets never increase from pass to pass
  (`pairwise_regret_of_stages`).

  No profile has a negative excess, so a start without excess stays the incumbent, and
  the first pass meets the tolerance (`incumbent_eq_start`).

  Main statements:
    * `isFirstLeast_of_solve`, for every start for which the solve answers;
    * `solve_gives_back`, for every normalized start of the game's shape.
-/
import Mathlib.Data.List.Chain
import SimplicialNash.Proofs.Refinement.Grid

namespace SimplicialNash

/-- Both coins show heads every other time. -/
def halves : Profile := ⟨[2, 2], .filled _ (1 / 2)⟩

theorem isSolveStart_halves : IsSolveStart ClassicGame.matchingPennies.game.toGame halves where
  players := by decide +kernel
  shape_eq := by decide +kernel
  isNormalized := by decide +kernel

namespace Solver

variable {s : Solver} {g : Game} {settings : Settings} {clock : Clock} {start : Profile}
  {keepGoing : PassReport → Bool} {limit : Nat} {reports : List PassReport} {a : Answer}
  {done rest : List Stage} {stage : Stage}

/-! ## §1. What is seen -/

/-- The profiles that a pass of a solve evaluates, in order. -/
def Stage.evaluated (s : Solver) (clock : Clock) (stage : Stage) : List Profile :=
  evaluatedProfiles s.game stage.reference stage.report.mesh s.settings.leashLength.toNat
    stage.before.incumbent s.limits clock

/-- The start, and what has been evaluated in some passes, in order. -/
def seen (s : Solver) (start : Profile) (clock : Clock) (passes : List Stage) : List Profile :=
  start :: passes.flatMap (Stage.evaluated s clock)

theorem seen_append (s : Solver) (start : Profile) (clock : Clock) (passes more : List Stage) :
    s.seen start clock (passes ++ more)
      = s.seen start clock passes ++ more.flatMap (Stage.evaluated s clock) := by
  rw [seen, List.flatMap_append, ← List.cons_append]
  rfl

/-- **The incumbent** before and after a pass is the earliest of the best profiles seen. -/
theorem isFirstLeast_of_stages
    (h : s.stages start clock keepGoing limit = done ++ stage :: rest) :
    s.game.IsFirstLeast (s.seen start clock done) stage.before.incumbent.profile
        stage.before.incumbent.regret
      ∧ s.game.IsFirstLeast (s.seen start clock (done ++ [stage])) stage.after.incumbent.profile
        stage.after.incumbent.regret := by
  refine (stages_induction (motive := fun done progress => s.game.IsFirstLeast
    (s.seen start clock done) progress.incumbent.profile progress.incumbent.regret) ?_ ?_ h).2
  · intro progress hbegin
    obtain ⟨-, -, hinc, -⟩ := begin_cases hbegin
    obtain ⟨hexcess, hprofile⟩ := Incumbent.exists_of_ofStart_eq_ok hinc
    rw [hprofile]
    exact Game.IsFirstLeast.singleton hexcess
  · intro done progress r next hinv hpass
    obtain ⟨o, ho, rfl, rfl⟩ := nextPass_cases hpass
    rw [seen_append, List.flatMap_singleton]
    exact isFirstLeast_of_runPass ho hinv

/-- **Regrets never increase** from pass to pass. -/
theorem pairwise_regret_of_stages (s : Solver) (start : Profile) (clock : Clock)
    (keepGoing : PassReport → Bool) (limit : Nat) :
    (s.stages start clock keepGoing limit).Pairwise
      fun earlier later => later.report.regret ≤ earlier.report.regret := by
  rw [← List.isChain_iff_pairwise, List.isChain_iff_forall_rel_of_append_cons_cons]
  intro stage stage' done rest h
  have h' := h.trans (List.append_cons done stage (stage' :: rest))
  obtain ⟨hbefore, hafter⟩ := isFirstLeast_of_stages h'
  rw [seen_append] at hafter
  obtain ⟨-, -, hregret, -⟩ := report_of_stages h
  obtain ⟨-, -, hregret', -⟩ := report_of_stages h'
  rw [hregret, hregret', ← before_eq_after h]
  exact hbefore.le_of_append hafter

/-- What a solve answers with is the earliest of the best profiles of all passes. -/
theorem isFirstLeast_answer (h : s.solve start clock keepGoing = .ok (reports, a)) :
    s.game.IsFirstLeast (s.seen start clock (s.stages start clock keepGoing maxPasses))
      a.profile a.regret := by
  obtain ⟨done, last, reason, hstages, -, -, rfl⟩ := solve_eq_ok_iff.mp h
  have hlast := (isFirstLeast_of_stages hstages).2
  rwa [← hstages] at hlast

/-- A solve says that it has converged exactly if the regret is below the tolerance. -/
theorem converged_iff (h : s.solve start clock keepGoing = .ok (reports, a)) :
    a.converged = true ↔ a.regret < s.tolerance := by
  obtain ⟨done, last, reason, hstages, hstop, -, rfl⟩ := solve_eq_ok_iff.mp h
  obtain ⟨-, -, hregret, -⟩ := report_of_stages hstages
  rw [answer, ← hregret, ← stop?_eq_converged_iff, hstop, Option.some_inj]
  exact beq_iff_eq

/-- **The best profile seen.**  Whatever the start, if a solve answers, then with the
earliest of the profiles of smallest excess among the start and all that its passes have
evaluated, and with that excess; the report of each pass is the same of what has been seen
until then, so that regrets never increase.  The answer has converged exactly if the
regret is below the tolerance. -/
theorem isFirstLeast_of_solve (hs : ofGame g settings = .ok s) {tolerance : Rat}
    (htolerance : settings.tolerance.toRat? = some tolerance)
    (h : s.solve start clock keepGoing = .ok (reports, a)) :
    g.excess a.profile = .ok a.regret
      ∧ g.IsFirstLeast (s.seen start clock (s.stages start clock keepGoing maxPasses))
        a.profile a.regret
      ∧ reports = (s.stages start clock keepGoing maxPasses).map Stage.report
      ∧ (∀ done stage rest, s.stages start clock keepGoing maxPasses = done ++ stage :: rest →
        g.IsFirstLeast (s.seen start clock (done ++ [stage])) stage.report.profile
          stage.report.regret)
      ∧ reports.Pairwise (fun earlier later => later.regret ≤ earlier.regret)
      ∧ (a.converged = true ↔ a.regret < tolerance) := by
  obtain ⟨rfl, rfl, htolerance', -⟩ := isOf_of_ofGame hs
  obtain rfl := Option.some.inj (htolerance.symm.trans htolerance')
  have hleast := isFirstLeast_answer h
  refine ⟨hleast.excess_eq, hleast, reports_eq_map h, ?_, ?_, converged_iff h⟩
  · intro done stage rest hstages
    obtain ⟨-, -, hregret, hprofile⟩ := report_of_stages hstages
    rw [hregret, hprofile]
    exact (isFirstLeast_of_stages hstages).2
  · rw [reports_eq_map h, List.pairwise_map]
    exact pairwise_regret_of_stages s start clock keepGoing maxPasses

theorem isFirstLeast_of_solve_thirds :
    ∃ reports a, coarseSolver.solve thirds .stopped (fun r => r.pass < 2) = .ok (reports, a)
      ∧ a.profile.values = [14 / 27, 13 / 27, 14 / 27, 13 / 27]
      ∧ reports.map PassReport.regret = [10 / 81, 28 / 729] ∧ a.stop = .caller
      ∧ ClassicGame.matchingPennies.game.toGame.IsFirstLeast
        (coarseSolver.seen thirds .stopped
          (coarseSolver.stages thirds .stopped (fun r => r.pass < 2) maxPasses))
        a.profile a.regret
      ∧ reports.Pairwise (fun earlier later => later.regret ≤ earlier.regret)
      ∧ ¬ a.regret < 1 / 32 := by
  have hsolve : coarseSolver.solve thirds .stopped (fun r => r.pass < 2)
      = .ok ([⟨1, 1 / 9, 10 / 81, ⟨[2, 2], ⟨#v[4 / 9, 5 / 9, 5 / 9, 4 / 9]⟩⟩, 9, .fullyLabeled⟩,
          ⟨2, 1 / 27, 28 / 729, ⟨[2, 2], ⟨#v[14 / 27, 13 / 27, 14 / 27, 13 / 27]⟩⟩, 9,
            .fullyLabeled⟩],
        ⟨⟨[2, 2], ⟨#v[14 / 27, 13 / 27, 14 / 27, 13 / 27]⟩⟩, 28 / 729, 2, 18, 1 / 27, .caller⟩) := by
    decide +kernel
  have htolerance : Settings.coarse.tolerance.toRat? = some (1 / 32) :=
    (isOf_of_ofGame ofGame_coarse).toRat?_tolerance
  obtain ⟨-, hleast, -, -, hregrets, hconverged⟩ :=
    isFirstLeast_of_solve ofGame_coarse htolerance hsolve
  refine ⟨_, _, hsolve, rfl, rfl, rfl, hleast, hregrets, fun hlt => ?_⟩
  cases hconverged.mpr hlt

/-! ## §2. Starts without excess -/

/-- No profile that a pass evaluates has a negative excess. -/
theorem nonneg_of_mem_evaluated (hs : IsOf g settings s) (hstart : IsSolveStart g start)
    (h : s.stages start clock keepGoing limit = done ++ stage :: rest) {q : Profile} {e : Rat}
    (hq : q ∈ stage.evaluated s clock) (he : s.game.excess q = .ok e) : 0 ≤ e := by
  have hbegin := isPassStart_of_stages hs hstart h
  obtain ⟨-, hnormalized, -⟩ := isNormalized_of_mem_evaluatedProfiles hbegin hq
  obtain ⟨d, hd, rfl⟩ := Game.exists_of_excess_eq_ok he
  exact Game.excess_nonneg hnormalized hd

/-- **A start without excess** is still the incumbent after the first pass. -/
theorem incumbent_eq_start (hs : IsOf g settings s) (hstart : IsSolveStart g start)
    (hzero : g.excess start = .ok 0)
    (h : s.stages start clock keepGoing limit = [] ++ stage :: rest) :
    stage.after.incumbent.profile = start ∧ stage.after.incumbent.regret = 0 := by
  obtain ⟨-, hleast⟩ := isFirstLeast_of_stages h
  refine hleast.eq_head (hs.game_eq ▸ hzero) fun q hq e he => ?_
  rw [List.nil_append, List.flatMap_singleton] at hq
  exact nonneg_of_mem_evaluated hs hstart h hq he

/-- A solve from a profile has one pass and gives the profile back, as converged. -/
def GivesBack (s : Solver) (p : Profile) : Prop :=
  ∀ clock keepGoing, ∃ r a, s.solve p clock keepGoing = .ok ([r], a)
    ∧ a.profile = p ∧ a.regret = 0 ∧ a.converged = true ∧ a.passes = 1

/-- **A start without excess is given back.** -/
theorem givesBack_of_excess_eq_zero (hs : IsOf g settings s) (hstart : IsSolveStart g start)
    (hzero : g.excess start = .ok 0) : s.GivesBack start := by
  intro clock keepGoing
  -- the first pass meets the tolerance, because the tolerance is positive
  have hmeets : ∀ done stage rest,
      s.stages start clock keepGoing maxPasses = done ++ stage :: rest → done.length = 0 →
        stage.report.regret < s.tolerance := by
    intro done stage rest hstages hdone
    obtain rfl := List.length_eq_zero_iff.mp hdone
    obtain ⟨-, -, hreport, -⟩ := report_of_stages hstages
    rw [hreport, (incumbent_eq_start hs hstart hzero hstages).2]
    exact hs.tolerance_pos
  obtain ⟨done, stage, reason, hdone, hstages, -, hsolve⟩ :=
    exists_solve_of_regret_lt hs hstart (by decide) hmeets
  obtain rfl := List.length_eq_zero_iff.mp (Nat.le_zero.mp hdone)
  obtain ⟨hprofile, hregret⟩ := incumbent_eq_start hs hstart hzero hstages
  have hconverged := (converged_iff hsolve).mpr (hregret.trans_lt hs.tolerance_pos)
  exact ⟨_, _, hsolve, hprofile, hregret, hconverged,
    (isOnCourse_of_stages hs hstart hstages).2.passes_eq⟩

/-- What a solve answers with is a start for another. -/
theorem isSolveStart_answer (hs : IsOf g settings s) (hstart : IsSolveStart g start)
    (h : s.solve start clock keepGoing = .ok (reports, a)) : IsSolveStart g a.profile := by
  obtain ⟨done, last, reason, hstages, -, -, rfl⟩ := solve_eq_ok_iff.mp h
  obtain ⟨-, hafter⟩ := isOnCourse_of_stages hs hstart hstages
  exact ⟨hstart.players, hs.game_eq ▸ hafter.shape_eq, hafter.isNormalized⟩

/-- **Starts without excess.**  A solve from a normalized profile without excess gives that
profile back after one pass, whatever the clock and the caller.  So it does with any answer
without regret, of whichever solve of the same game it is the answer. -/
theorem solve_gives_back (hs : ofGame g settings = .ok s) :
    (∀ start, IsSolveStart g start → g.excess start = .ok 0 → s.GivesBack start)
      ∧ ∀ settings' s' start clock keepGoing reports a, ofGame g settings' = .ok s' →
        IsSolveStart g start → s'.solve start clock keepGoing = .ok (reports, a) →
        a.regret = 0 → s.GivesBack a.profile := by
  have hof := isOf_of_ofGame hs
  refine ⟨fun start hstart hzero => givesBack_of_excess_eq_zero hof hstart hzero, ?_⟩
  intro settings' s' start clock keepGoing reports a hs' hstart hsolve hregret
  have hof' := isOf_of_ofGame hs'
  refine givesBack_of_excess_eq_zero hof (isSolveStart_answer hof' hstart hsolve) ?_
  rw [← hregret, ← hof'.game_eq]
  exact (isFirstLeast_answer hsolve).excess_eq

theorem solve_gives_back_halves :
    coarseSolver.GivesBack halves
      ∧ ∃ s, ofGame ClassicGame.matchingPennies.game.toGame .default = .ok s
        ∧ ∃ reports a, s.solve heads .stopped (fun _ => true) = .ok (reports, a)
          ∧ a.profile = halves ∧ a.pivots = 5 ∧ coarseSolver.GivesBack a.profile := by
  obtain ⟨hstarts, hanswers⟩ := solve_gives_back ofGame_coarse
  have hs : ofGame ClassicGame.matchingPennies.game.toGame .default
      = .ok ⟨_, .default, 7737125245533627 / 2 ^ 86⟩ :=
    ofGame_eq_ok (by decide +kernel) (by decide +kernel) _
  have hsolve : (⟨ClassicGame.matchingPennies.game.toGame, .default, 7737125245533627 / 2 ^ 86⟩ :
      Solver).solve heads .stopped (fun _ => true)
      = .ok ([⟨1, 1 / 2, 0, halves, 5, .fullyLabeled⟩], ⟨halves, 0, 1, 5, 1 / 2, .converged⟩) := by
    decide +kernel
  exact ⟨hstarts halves isSolveStart_halves (by decide +kernel), _, hs, _, _, hsolve, rfl, rfl,
    hanswers _ _ heads .stopped (fun _ => true) _ _ hs isSolveStart_heads hsolve rfl⟩

end Solver

end SimplicialNash
