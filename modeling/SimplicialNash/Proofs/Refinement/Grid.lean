/-
  SimplicialNash.Proofs.Refinement.Grid
  ─────────────────────────────────────
  **Every pass of a solve begins and ends on its grid.**

  `Solver.IsOnCourse` says where a solve stands after a number of passes: its mesh is
  one over the common denominator of the start and a power of the resize factor, and
  the incumbent is a normalized profile on that grid.  It is so at the beginning
  (`isOnCourse_begin`), and a pass keeps it (`IsOnCourse.nextPass`): the old incumbent
  is on the finer grid too, and so is all that the walk evaluates.  On its grid no pass
  is a fault, so a solve goes on until a pass stops it (`exists_stop_of_length_stages_lt`),
  at the latest one that meets the tolerance (`exists_solve_of_regret_lt`).

  Main statement, for every normalized start of the game's shape, every clock and
  caller, and any number of passes: `stages_isOnGrid`.
-/
import Mathlib.Tactic.Positivity
import SimplicialNash.Proofs.Denominator
import SimplicialNash.Proofs.Refinement.Stages
import SimplicialNash.Proofs.Walk.Evaluated

namespace SimplicialNash

/-- What a solve starts from: a valid profile of the game's shape.  It is normalized, and
its shape has players. -/
structure IsSolveStart (g : Game) (start : Profile) : Prop where
  players : g.shape ≠ []
  shape_eq : start.shape = g.shape
  isNormalized : start.IsNormalized

theorem isSolveStart_heads : IsSolveStart ClassicGame.matchingPennies.game.toGame heads where
  players := isPassStart_heads.players
  shape_eq := isPassStart_heads.shape_eq
  isNormalized := isPassStart_heads.isNormalized

/-- Both coins show heads once in three times. -/
def thirds : Profile := ⟨[2, 2], .tabulate fun l => if l.strategy = 0 then 1 / 3 else 2 / 3⟩

theorem isSolveStart_thirds : IsSolveStart ClassicGame.matchingPennies.game.toGame thirds where
  players := by decide +kernel
  shape_eq := by decide +kernel
  isNormalized := by decide +kernel

/-- Meshes are divided by three, and a regret below `1 / 32` will do. -/
def Settings.coarse : Settings :=
  { Settings.default with gridResize := 3, tolerance := .ofRat (1 / 32) }

namespace Solver

/-- Matching pennies, solved coarsely. -/
def coarseSolver : Solver := ⟨ClassicGame.matchingPennies.game.toGame, .coarse, 1 / 32⟩

theorem ofGame_coarse :
    ofGame ClassicGame.matchingPennies.game.toGame .coarse = .ok coarseSolver :=
  ofGame_eq_ok (by decide +kernel) (by decide +kernel) _

/-- A game with the default settings; the tolerance is the binary64 number nearest to one
ten-billionth. -/
def defaultSolver (g : Game) : Solver := ⟨g, .default, 7737125245533627 / 2 ^ 86⟩

theorem ofGame_default (g : Game) : ofGame g .default = .ok (defaultSolver g) :=
  ofGame_eq_ok (by decide +kernel) (by decide +kernel) g

variable {s : Solver} {g : Game} {settings : Settings} {clock : Clock} {start : Profile}
  {keepGoing : PassReport → Bool} {limit n : Nat} {progress next : Progress} {r : PassReport}
  {reports : List PassReport} {a : Answer}

/-! ## §1. One pass -/

/-- Where a solve stands after a number of passes. -/
structure IsOnCourse (s : Solver) (start : Profile) (passes : Nat) (progress : Progress) :
    Prop where
  passes_eq : progress.passes = passes
  mesh_eq : progress.mesh
    = 1 / (start.denominatorLcm * (s.settings.gridResize.toNat : Rat) ^ passes)
  shape_eq : progress.incumbent.profile.shape = s.game.shape
  isNormalized : progress.incumbent.profile.IsNormalized
  isOnGrid : progress.incumbent.profile.IsOnGrid progress.mesh

/-- **A solve begins on the grid of its start.** -/
theorem isOnCourse_begin (hstart : IsSolveStart s.game start)
    (h : s.begin start = .ok progress) : s.IsOnCourse start 0 progress := by
  obtain ⟨hshape, hmesh, hinc, hpasses, -⟩ := begin_cases h
  obtain ⟨-, hprofile⟩ := Incumbent.exists_of_ofStart_eq_ok hinc
  have hmesh' : progress.mesh = 1 / start.denominatorLcm := by
    rw [hmesh, Rat.mkRat_eq_div, Int.cast_one]
  refine ⟨hpasses, ?_, ?_, ?_, ?_⟩
  · rw [hmesh', pow_zero, mul_one]
  · rw [hprofile, hshape]
  · rw [hprofile]
    exact hstart.isNormalized
  · rw [hprofile, hmesh']
    exact start.isOnGrid_denominatorLcm

theorem exists_begin (hstart : IsSolveStart s.game start) :
    ∃ progress, s.begin start = .ok progress := by
  obtain ⟨d, hd⟩ := Game.exists_bestDeviation hstart.shape_eq
    (hstart.shape_eq ▸ hstart.players) hstart.isNormalized.zero_notMem
  have hinc : Incumbent.ofStart s.game start = .ok ⟨d.excess, start, 0⟩ := by
    show (s.game.bestDeviation start >>= _) = _
    rw [hd, ok_bind]
    rfl
  unfold begin
  rw [if_pos hstart.shape_eq, hinc]
  exact ⟨_, rfl⟩

namespace IsOnCourse

/-- The mesh of the next pass, in terms of the start. -/
theorem nextMesh_eq (h : s.IsOnCourse start n progress) :
    s.nextMesh progress
      = 1 / (start.denominatorLcm * (s.settings.gridResize.toNat : Rat) ^ (n + 1)) := by
  rw [nextMesh, h.mesh_eq, div_div, pow_succ, mul_assoc]

/-- The old grid is part of the new one. -/
theorem mul_nextMesh (hresize : 2 ≤ s.settings.gridResize.toNat) (progress : Progress) :
    (s.settings.gridResize.toNat : Rat) * s.nextMesh progress = progress.mesh := by
  have hne : (s.settings.gridResize.toNat : Rat) ≠ 0 := Nat.cast_ne_zero.mpr (by omega)
  rw [nextMesh, mul_div_cancel₀ progress.mesh hne]

/-- **A pass begins on its grid.** -/
theorem isPassStart (h : s.IsOnCourse start n progress) (hs : IsOf g settings s)
    (hstart : IsSolveStart g start) :
    IsPassStart s.game progress.incumbent.profile (s.nextMesh progress)
      s.settings.leashLength.toNat := by
  obtain ⟨rfl, rfl, -, -, hresize, hleash⟩ := hs
  refine ⟨hstart.players, h.shape_eq, h.isNormalized, ?_, ?_, hleash⟩
  · have hk := start.denominatorLcm_pos
    have hg : 0 < s.settings.gridResize.toNat := by omega
    rw [h.nextMesh_eq]
    positivity
  · refine Profile.IsOnGrid.refine (n := s.settings.gridResize.toNat) ?_
    rw [mul_nextMesh hresize]
    exact h.isOnGrid

/-- **A pass ends on its grid.** -/
theorem nextPass (h : s.IsOnCourse start n progress) (hs : IsOf g settings s)
    (hstart : IsSolveStart g start) (hpass : s.nextPass clock progress = .ok (r, next)) :
    s.IsOnCourse start (n + 1) next := by
  have hbegin := h.isPassStart hs hstart
  obtain ⟨o, ho, rfl, rfl⟩ := nextPass_cases hpass
  have hprofile : o.incumbent.profile.shape = s.game.shape ∧ o.incumbent.profile.IsNormalized
      ∧ o.incumbent.profile.IsOnGrid (s.nextMesh progress) := by
    -- the incumbent is the old one or has been evaluated in the pass
    rcases Incumbent.profile_labelAll (labelAll_evaluatedProfiles ho) with hold | hnew
    · rw [hold]
      exact ⟨h.shape_eq, h.isNormalized, hbegin.isOnGrid⟩
    · exact isNormalized_of_mem_evaluatedProfiles hbegin hnew
  obtain ⟨hshape, hnormalized, hgrid⟩ := hprofile
  exact ⟨congrArg (· + 1) h.passes_eq, h.nextMesh_eq, hshape, hnormalized, hgrid⟩

/-- **No pass is a fault.** -/
theorem exists_nextPass (h : s.IsOnCourse start n progress) (hs : IsOf g settings s)
    (hstart : IsSolveStart g start) (clock : Clock) :
    ∃ r next, s.nextPass clock progress = .ok (r, next) ∧ s.IsOnCourse start (n + 1) next := by
  obtain ⟨_, _, last, _, ending, _, _, hrun, _⟩ :=
    (h.isPassStart hs hstart).exists_runPass progress.incumbent s.limits clock
  have hpass := nextPass_eq_ok hrun
  exact ⟨_, _, hpass, h.nextPass hs hstart hpass⟩

end IsOnCourse

/-! ## §2. All passes -/

/-- **Every pass of a solve is on course.** -/
theorem isOnCourse_of_stages (hs : IsOf g settings s) (hstart : IsSolveStart g start)
    {done rest : List Stage} {stage : Stage}
    (h : s.stages start clock keepGoing limit = done ++ stage :: rest) :
    s.IsOnCourse start done.length stage.before
      ∧ s.IsOnCourse start (done.length + 1) stage.after := by
  have hstart' : IsSolveStart s.game start := hs.game_eq ▸ hstart
  obtain ⟨-, hbefore, hafter⟩ := stages_induction
    (motive := fun done progress => s.IsOnCourse start done.length progress)
    (fun progress hbegin => isOnCourse_begin hstart' hbegin)
    (fun done progress r next hinv hpass => by
      rw [List.length_append]
      exact hinv.nextPass hs hstart hpass) h
  rw [List.length_append] at hafter
  exact ⟨hbefore, hafter⟩

/-- Every pass of a solve begins on the grid of the mesh that is reported of it. -/
theorem isPassStart_of_stages (hs : IsOf g settings s) (hstart : IsSolveStart g start)
    {done rest : List Stage} {stage : Stage}
    (h : s.stages start clock keepGoing limit = done ++ stage :: rest) :
    IsPassStart s.game stage.reference stage.report.mesh s.settings.leashLength.toNat := by
  rw [mesh_of_nextPass (nextPass_of_stages h)]
  exact (isOnCourse_of_stages hs hstart h).1.isPassStart hs hstart

/-- **A solve goes on until a pass stops it.** -/
theorem exists_stop_of_length_stages_lt (hs : IsOf g settings s) (hstart : IsSolveStart g start)
    (hlength : (s.stages start clock keepGoing limit).length < limit) :
    ∃ done last reason, s.stages start clock keepGoing limit = done ++ [last]
      ∧ s.stop? last.report (keepGoing last.report) = some reason := by
  have hstart' : IsSolveStart s.game start := hs.game_eq ▸ hstart
  obtain ⟨progress, hbegin⟩ := exists_begin hstart'
  rw [stages, hbegin] at hlength ⊢
  refine exists_stop_of_length_stagesFrom_lt (motive := fun progress => ∃ n,
    s.IsOnCourse start n progress) ⟨0, isOnCourse_begin hstart' hbegin⟩ ?_ hlength
  rintro progress ⟨n, hcourse⟩
  obtain ⟨r, next, hpass, hnext⟩ := hcourse.exists_nextPass hs hstart clock
  exact ⟨r, next, hpass, n + 1, hnext⟩

/-- **A pass that meets the tolerance is the last one**, and the solve answers. -/
theorem exists_solve_of_regret_lt (hs : IsOf g settings s) (hstart : IsSolveStart g start)
    (hn : n + 1 < maxPasses)
    (hmeets : ∀ done stage rest,
      s.stages start clock keepGoing maxPasses = done ++ stage :: rest → done.length = n →
        stage.report.regret < s.tolerance) :
    ∃ done last reason, done.length ≤ n
      ∧ s.stages start clock keepGoing maxPasses = done ++ [last]
      ∧ s.stop? last.report (keepGoing last.report) = some reason
      ∧ s.solve start clock keepGoing
        = .ok ((done ++ [last]).map Stage.report, answer last.after reason) := by
  have hlength : (s.stages start clock keepGoing maxPasses).length ≤ n + 1 := by
    refine length_stages_le fun done stage rest hstages hdone => ?_
    rw [stop?_eq_converged_iff.mpr (hmeets done stage rest hstages hdone)]
    exact Option.some_ne_none _
  obtain ⟨done, last, reason, hstages, hstop⟩ :=
    exists_stop_of_length_stages_lt hs hstart (hlength.trans_lt hn)
  rw [hstages, List.length_append] at hlength
  exact ⟨done, last, reason, Nat.le_of_succ_le_succ hlength, hstages, hstop,
    solve_eq_ok_iff.mpr ⟨done, last, reason, hstages, hstop, rfl, rfl⟩⟩

/-- **Meshes and grids.**  Every pass of a solve, whether the solve ends or not, is a
walk from a profile on its grid; the mesh is one over `k` and as many resize factors as
there have been passes, where `k` is the least number that makes all weights of the start
integers; what is reported is a normalized profile on the grid, and the next pass begins
there.  Passes go on until one of them stops the solve.  If the solve answers, then with
the profile and the mesh of the last report. -/
theorem stages_isOnGrid (hs : ofGame g settings = .ok s) (hstart : IsSolveStart g start)
    (clock : Clock) (keepGoing : PassReport → Bool) (limit : Nat) :
    ∃ k : Nat, IsLeast {k : Nat | 0 < k ∧ ∀ w ∈ start.values, ∃ z : Int, (k : Rat) * w = z} k
      ∧ (∀ done stage rest, s.stages start clock keepGoing limit = done ++ stage :: rest →
        (∃ o, runPass g stage.reference stage.report.mesh settings.leashLength.toNat
            stage.before.incumbent s.limits clock = .ok o ∧ o.incumbent = stage.after.incumbent)
          ∧ stage.report.pass = done.length + 1
          ∧ stage.report.mesh
            = 1 / (k * (settings.gridResize.toNat : Rat) ^ (done.length + 1))
          ∧ stage.reference.IsOnGrid stage.report.mesh
          ∧ stage.report.profile.shape = g.shape
          ∧ stage.report.profile.IsNormalized
          ∧ stage.report.profile.IsOnGrid stage.report.mesh
          ∧ ∀ following ∈ rest.head?, following.reference = stage.report.profile)
      ∧ ((s.stages start clock keepGoing limit).length < limit →
        ∃ last ∈ (s.stages start clock keepGoing limit).getLast?,
          (s.stop? last.report (keepGoing last.report)).isSome)
      ∧ ∀ reports a, s.solve start clock keepGoing = .ok (reports, a) →
        reports = (s.stages start clock keepGoing maxPasses).map Stage.report
          ∧ ∃ last ∈ reports.getLast?, a.profile = last.profile ∧ a.finalMesh = last.mesh := by
  have hof := isOf_of_ofGame hs
  refine ⟨start.denominatorLcm, start.isLeast_denominatorLcm, ?_, ?_, ?_⟩
  · intro done stage rest hstages
    obtain ⟨-, hafter⟩ := isOnCourse_of_stages hof hstart hstages
    obtain ⟨hnumber, hmesh, -, hprofile⟩ := report_of_stages hstages
    have hreference := (isPassStart_of_stages hof hstart hstages).isOnGrid
    have hpass := nextPass_of_stages hstages
    obtain ⟨o, ho, hnext, -⟩ := nextPass_cases hpass
    rw [← mesh_of_nextPass hpass] at ho
    obtain ⟨rfl, rfl, -⟩ := hof
    refine ⟨⟨o, ho, by rw [hnext]; rfl⟩, hnumber.trans hafter.passes_eq,
      hmesh.trans hafter.mesh_eq, hreference, ?_, ?_, ?_, ?_⟩
    · rw [hprofile]
      exact hafter.shape_eq
    · rw [hprofile]
      exact hafter.isNormalized
    · rw [hprofile, hmesh]
      exact hafter.isOnGrid
    · intro following hfollowing
      obtain ⟨others, rfl⟩ := List.head?_eq_some_iff.mp hfollowing
      rw [Stage.reference, before_eq_after hstages, hprofile]
  · intro hlength
    obtain ⟨done, last, reason, hstages, hstop⟩ :=
      exists_stop_of_length_stages_lt hof hstart hlength
    refine ⟨last, ?_, ?_⟩
    · rw [hstages]
      simp
    · rw [hstop]
      rfl
  · intro reports a hsolve
    obtain ⟨done, last, reason, hstages, -, hreports, rfl⟩ := solve_eq_ok_iff.mp hsolve
    obtain ⟨-, hmesh, -, hprofile⟩ := report_of_stages hstages
    refine ⟨reports_eq_map hsolve, last.report, ?_, hprofile.symm, hmesh.symm⟩
    rw [hreports]
    simp

theorem stages_isOnGrid_thirds :
    ∃ first second, coarseSolver.stages thirds .stopped (fun r => r.pass < 2) 5 = [first, second]
      ∧ first.report.mesh = 1 / 9 ∧ second.report.mesh = 1 / 27
      ∧ first.reference.IsOnGrid (1 / 9) ∧ second.reference.IsOnGrid (1 / 27)
      ∧ second.reference = first.report.profile
      ∧ second.report.profile.values = [14 / 27, 13 / 27, 14 / 27, 13 / 27]
      ∧ second.report.profile.IsNormalized ∧ second.report.profile.IsOnGrid (1 / 27) := by
  have hpasses : (coarseSolver.stages thirds .stopped (fun r => r.pass < 2) 5).map
      (fun stage => (stage.report.mesh, stage.report.profile.values))
      = [(1 / 9, [4 / 9, 5 / 9, 5 / 9, 4 / 9]), (1 / 27, [14 / 27, 13 / 27, 14 / 27, 13 / 27])] := by
    decide +kernel
  obtain ⟨first, others, hfirst, hreport, hothers⟩ := List.map_eq_cons_iff.mp hpasses
  obtain ⟨second, last, rfl, hreport', hlast⟩ := List.map_eq_cons_iff.mp hothers
  obtain rfl := List.map_eq_nil_iff.mp hlast
  obtain ⟨hmesh, -⟩ := Prod.mk.inj hreport
  obtain ⟨hmesh', hvalues⟩ := Prod.mk.inj hreport'
  obtain ⟨k, -, hall, -⟩ := stages_isOnGrid ofGame_coarse isSolveStart_thirds .stopped
    (fun r => r.pass < 2) 5
  obtain ⟨-, -, -, hreference, -, -, -, hnext⟩ := hall [] first [second] hfirst
  obtain ⟨-, -, -, hreference', -, hnormalized, hgrid, -⟩ := hall [first] second [] hfirst
  rw [hmesh] at hreference
  rw [hmesh'] at hreference' hgrid
  exact ⟨first, second, hfirst, hmesh, hmesh', hreference, hreference', hnext second rfl, hvalues,
    hnormalized, hgrid⟩

end Solver

end SimplicialNash
