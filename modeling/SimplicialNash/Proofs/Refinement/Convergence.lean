/-
  SimplicialNash.Proofs.Refinement.Convergence
  ────────────────────────────────────────────
  **Without limits a solve converges.**

  If nothing limits the passes, each of them ends fully labelled, and then the regret is
  bounded by its mesh, as long as the leash is at least as long as one divided by the
  mesh (`IsOnCourse.regret_le`).  Only the tolerance can stop such a solve
  (`stop?_eq_converged`), so it ends at the latest with the first pass whose bound is
  below the tolerance (`exists_solve_of_regret_lt`).  That pass can be counted, because a
  leash that is long enough for it bounds its number (`lt_maxPasses`).

  Meshes shrink by the resize factor from pass to pass and the leash keeps its length,
  so there are settings for which the leash is too short when the mesh is fine enough:
  both conditions are about one and the same pass.

  Main statement: `solve_converges`.
-/
import SimplicialNash.Proofs.Refinement.Grid
import SimplicialNash.Proofs.Walk.Regret

namespace SimplicialNash

namespace Solver

variable {s : Solver} {g : Game} {settings : Settings} {clock : Clock} {start : Profile}
  {keepGoing : PassReport → Bool} {limit n p : Nat} {progress next : Progress} {r : PassReport}

/-! ## §1. Passes without limits -/

/-- Nothing ends a pass early. -/
theorem limits_eq_none (hpivots : s.settings.maxPivots = none)
    (htime : s.settings.timeLimit = none) : s.limits = .none := by
  unfold limits
  rw [hpivots, htime]
  rfl

namespace IsOnCourse

/-- **A pass without limits ends fully labelled.** -/
theorem ending_eq (h : s.IsOnCourse start n progress) (hs : IsOf g settings s)
    (hstart : IsSolveStart g start) (hlimits : s.limits = .none)
    (hpass : s.nextPass clock progress = .ok (r, next)) : r.ending = .fullyLabeled := by
  obtain ⟨o, ho, -, rfl⟩ := nextPass_cases hpass
  obtain ⟨_, _, last, _, ending, _, _, hrun, _, _, hend⟩ :=
    (h.isPassStart hs hstart).exists_runPass progress.incumbent s.limits clock
  obtain rfl : last.outcome ending = o := Except.ok.inj (hrun.symm.trans ho)
  rcases hend with ⟨hending, -⟩ | ⟨elapsed, hreached⟩
  · exact hending
  · -- there is no limit to be reached
    rw [hlimits] at hreached
    cases hreached

/-- **The regret after a pass** is bounded by its mesh. -/
theorem regret_le (h : s.IsOnCourse start n progress) (hs : IsOf g settings s)
    (hstart : IsSolveStart g start) (hlimits : s.limits = .none)
    (hleash : 1 ≤ (s.settings.leashLength.toNat : Rat) * s.nextMesh progress)
    (hpass : s.nextPass clock progress = .ok (r, next)) :
    r.regret ≤ 2 * g.spread * s.nextMesh progress * g.shape.size := by
  have hend := h.ending_eq hs hstart hlimits hpass
  have hbegin := h.isPassStart hs hstart
  obtain ⟨o, ho, rfl, rfl⟩ := nextPass_cases hpass
  obtain ⟨G, f, c, hmesh, hlength, hvalid, hfinal, hseen⟩ := hbegin.exists_isFinal ho hend
  obtain ⟨rfl, -⟩ := hs
  rw [← hmesh, ← hlength] at hleash
  rw [← hmesh, ← hbegin.shape_eq]
  exact hfinal.regret_le hvalid hbegin.shape_eq (Grid.room_eq_units hleash) hseen

end IsOnCourse

/-! ## §2. Whole solves -/

/-- **Only the tolerance stops** a solve without limits whose caller wants it to go on. -/
theorem stop?_eq_converged (hending : r.ending = .fullyLabeled)
    (hrefinements : s.settings.maxRefinements = none) {reason : StopReason}
    (h : s.stop? r true = some reason) : reason = .converged := by
  unfold stop? at h
  rw [hending, hrefinements] at h
  split at h
  · exact (Option.some.inj h).symm
  · simp at h

/-- A leash that is long enough for a pass limits the number of that pass. -/
theorem lt_maxPasses (hresize : 2 ≤ settings.gridResize.toNat)
    (hleash : 1 ≤ (settings.leashLength.toNat : Rat)
      * (1 / (start.denominatorLcm * (settings.gridResize.toNat : Rat) ^ p))) :
    p < maxPasses := by
  have hk := start.denominatorLcm_pos
  have hpow : 0 < settings.gridResize.toNat ^ p := Nat.pow_pos (by omega)
  have hpos : (0 : Rat) < start.denominatorLcm * (settings.gridResize.toNat : Rat) ^ p := by
    exact_mod_cast Nat.mul_pos hk hpow
  rw [mul_one_div, one_le_div hpos] at hleash
  have hle : start.denominatorLcm * settings.gridResize.toNat ^ p
      ≤ settings.leashLength.toNat := by exact_mod_cast hleash
  have hbound : 2 ^ p < 2 ^ 32 := by
    calc 2 ^ p ≤ settings.gridResize.toNat ^ p := Nat.pow_le_pow_left hresize p
      _ ≤ start.denominatorLcm * settings.gridResize.toNat ^ p := Nat.le_mul_of_pos_left _ hk
      _ ≤ settings.leashLength.toNat := hle
      _ < 2 ^ 32 := settings.leashLength.toNat_lt
  have hp : p < 32 := (Nat.pow_lt_pow_iff_right (by omega)).mp hbound
  exact hp.trans (by decide)

/-- **Convergence.**  If nothing limits the passes and for some pass the mesh is so fine
that twice the largest difference between two payoffs of one player, times the mesh,
times the number of all strategies, is below the tolerance, and the leash is still as
long as all weight of a player, then the solve converges, at the latest with that pass. -/
theorem solve_converges (hs : ofGame g settings = .ok s) (hstart : IsSolveStart g start)
    (hpivots : settings.maxPivots = none) (hrefinements : settings.maxRefinements = none)
    (htime : settings.timeLimit = none) {tolerance mesh : Rat}
    (htolerance : settings.tolerance.toRat? = some tolerance) (hp : 1 ≤ p)
    (hmesh : mesh = 1 / (start.denominatorLcm * (settings.gridResize.toNat : Rat) ^ p))
    (hregret : 2 * g.spread * mesh * g.shape.size < tolerance)
    (hleash : 1 ≤ (settings.leashLength.toNat : Rat) * mesh) (clock : Clock) :
    ∃ reports a, s.solve start clock (fun _ => true) = .ok (reports, a)
      ∧ reports.length = a.passes ∧ a.passes ≤ p ∧ a.converged = true
      ∧ a.regret < tolerance := by
  have hof := isOf_of_ofGame hs
  subst hmesh
  obtain ⟨rfl, rfl, htolerance', -, hresize, -⟩ := id hof
  obtain rfl := Option.some.inj (htolerance.symm.trans htolerance')
  have hlimits := limits_eq_none hpivots htime
  obtain ⟨n, rfl⟩ := Nat.exists_eq_add_of_le' hp
  -- the pass with this number meets the tolerance, if there are so many
  have hmeets : ∀ done stage rest,
      s.stages start clock (fun _ => true) maxPasses = done ++ stage :: rest → done.length = n →
        stage.report.regret < s.tolerance := by
    intro done stage rest hstages hdone
    obtain ⟨hbefore, -⟩ := isOnCourse_of_stages hof hstart hstages
    have hmesh := hbefore.nextMesh_eq
    rw [hdone] at hmesh
    rw [← hmesh] at hregret hleash
    exact (hbefore.regret_le hof hstart hlimits hleash (nextPass_of_stages hstages)).trans_lt
      hregret
  obtain ⟨done, last, reason, hdone, hstages, hstop, hsolve⟩ :=
    exists_solve_of_regret_lt hof hstart (lt_maxPasses hresize hleash) hmeets
  -- of the reasons to stop only the tolerance is left
  obtain ⟨hbefore, hafter⟩ := isOnCourse_of_stages hof hstart hstages
  have hending := hbefore.ending_eq hof hstart hlimits (nextPass_of_stages hstages)
  obtain rfl := stop?_eq_converged hending hrefinements hstop
  refine ⟨_, _, hsolve, ?_, ?_, rfl, ?_⟩
  · rw [List.length_map, List.length_append]
    exact hafter.passes_eq.symm
  · exact hafter.passes_eq.trans_le (Nat.succ_le_succ hdone)
  · obtain ⟨-, -, hlast, -⟩ := report_of_stages hstages
    exact hlast.symm.trans_lt (stop?_eq_converged_iff.mp hstop)

theorem solve_converges_thirds :
    ∃ reports a, coarseSolver.solve thirds .stopped (fun _ => true) = .ok (reports, a)
      ∧ a.regret = 82 / 6561 ∧ a.passes = 3 ∧ a.passes ≤ 5 ∧ a.converged = true
      ∧ a.regret < 1 / 32 := by
  have htolerance : Settings.coarse.tolerance.toRat? = some (1 / 32) :=
    (isOf_of_ofGame ofGame_coarse).toRat?_tolerance
  have hmesh : (1 / 729 : Rat)
      = 1 / (thirds.denominatorLcm * (Settings.coarse.gridResize.toNat : Rat) ^ 5) := by
    decide +kernel
  obtain ⟨reports, a, hsolve, -, hpasses, hconverged, hregret⟩ :=
    solve_converges ofGame_coarse isSolveStart_thirds rfl rfl rfl htolerance (by decide) hmesh
      (by decide +kernel) (by decide +kernel) .stopped
  have hanswer : (coarseSolver.solve thirds .stopped (fun _ => true)).toOption.map
      (fun result => (result.2.regret, result.2.passes)) = some (82 / 6561, 3) := by
    decide +kernel
  rw [hsolve] at hanswer
  obtain ⟨hvalue, hthree⟩ := Prod.mk.inj (Option.some.inj hanswer)
  exact ⟨reports, a, hsolve, hvalue, hthree, hpasses, hconverged, hregret⟩

end Solver

end SimplicialNash
