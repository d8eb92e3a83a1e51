/-
  SimplicialNash.Proofs.Walk.Budget
  ─────────────────────────────────
  **A limit on the evaluations cuts a pass short and changes nothing before.**

  A pass looks at its limits before an evaluation and nowhere else
  (`Pass.step_congr`), so two passes with different limits go together until one of
  the limits is reached.  Without a deadline, the clock has no say (`Pass.run_congr`,
  `Pass.evaluations_congr`).

  A pass with a budget of `k` evaluations is the pass without limits, cut before its
  evaluation number `k + 1`, if there is one (`Pass.run_atMost`): the moves that
  follow the last evaluation are made whether or not the budget is used up.

  Main statement, for every game with players, every normalized start on the grid,
  every leash and every budget: `runPass_atMost`.
-/
import SimplicialNash.Proofs.Walk.Evaluated

namespace SimplicialNash

/-! ## §1. Limits -/

namespace PassLimits

variable {limits : PassLimits}

/-- A budget of `k` evaluations, and no deadline. -/
def atMost (k : Nat) : PassLimits := ⟨some k, Option.none⟩

theorem reached?_none (pivots elapsed : Nat) : none.reached? pivots elapsed = Option.none := rfl

theorem reached?_atMost (k pivots elapsed : Nat) :
    (atMost k).reached? pivots elapsed
      = if k ≤ pivots then some .pivotLimit else Option.none := by
  simp [reached?, atMost]

/-- Without a deadline the time does not matter. -/
theorem reached?_congr (h : limits.deadline = Option.none) (pivots elapsed elapsed' : Nat) :
    limits.reached? pivots elapsed = limits.reached? pivots elapsed' := by
  unfold reached?
  rw [h]
  rfl

end PassLimits

namespace Pass

variable {shape : Shape} {g : Game} {limits limits' : PassLimits} {clock clock' : Clock}
  {elapsed elapsed' fuel k : Nat} {pass next : Pass shape} {o : PassOutcome}

/-! ## §2. Moves -/

/-- **Limits are looked at before evaluations only.** -/
theorem step_congr (h : pass.move = .evaluate →
      limits.reached? pass.pivots elapsed = limits'.reached? pass.pivots elapsed') :
    pass.step g limits elapsed = pass.step g limits' elapsed' := by
  by_cases hev : pass.move = .evaluate
  · unfold step
    rw [hev]
    dsimp only
    rw [h hev]
  · unfold step
    split
    · rfl
    · next hm => exact absurd hm hev
    · rfl

theorem evaluates_congr (h : pass.move = .evaluate →
      limits.reached? pass.pivots (clock pass.incumbent.evaluations)
        = limits'.reached? pass.pivots (clock' pass.incumbent.evaluations)) :
    pass.evaluates limits clock = pass.evaluates limits' clock' := by
  unfold evaluates
  by_cases hev : pass.move = .evaluate
  · rw [h hev]
  · rw [beq_eq_false_iff_ne.mpr hev, Bool.false_and, Bool.false_and]

/-! ## §3. Runs -/

/-- The states, of those through which at most `fuel` moves lead, in which a label is
evaluated. -/
def evaluations (g : Game) (limits : PassLimits) (clock : Clock) (fuel : Nat)
    (pass : Pass shape) : List (Pass shape) :=
  (pass.trace g limits clock fuel).filter (evaluates limits clock)

/-- A state comes before those that follow it. -/
theorem evaluations_succ
    (h : pass.step g limits (clock pass.incumbent.evaluations) = .ok (.inr next)) :
    pass.evaluations g limits clock (fuel + 1)
      = if pass.evaluates limits clock then pass :: next.evaluations g limits clock fuel
        else next.evaluations g limits clock fuel := by
  unfold evaluations
  rw [trace, h, List.filter_cons]

/-- Where a pass ends, nothing more is evaluated. -/
theorem evaluations_of_inl
    (h : pass.step g limits (clock pass.incumbent.evaluations) = .ok (.inl o)) :
    pass.evaluations g limits clock (fuel + 1) = [] := by
  have hfalse : pass.evaluates limits clock = false := by
    rcases step_cases h with ⟨ending, -, heval, -⟩ | ⟨next, d, hr, -⟩ | ⟨next, hr, -⟩
    · exact heval
    · cases hr
    · cases hr
  unfold evaluations
  rw [trace, h, List.filter_cons, hfalse]
  rfl

/-- **All evaluations of a run are counted.** -/
theorem pivots_run (h : pass.run g limits clock fuel = .ok o) :
    o.pivots = pass.pivots + (pass.evaluations g limits clock fuel).length := by
  induction fuel generalizing pass with
  | zero => cases h
  | succ fuel ih =>
    rw [run] at h
    cases hstep : pass.step g limits (clock pass.incumbent.evaluations) with
    | error fault =>
      rw [hstep] at h
      cases h
    | ok r =>
      rw [hstep] at h
      rcases step_cases hstep with
        ⟨ending, rfl, -⟩ | ⟨next, d, rfl, heval, -, hpivots⟩ | ⟨next, rfl, heval, -, hpivots⟩
      · rw [evaluations_of_inl hstep, ← Except.ok.inj h]
        rfl
      · rw [ih h, evaluations_succ hstep, heval, if_pos rfl, hpivots, List.length_cons]
        omega
      · rw [ih h, evaluations_succ hstep, heval, if_neg (by decide), hpivots]

/-- **Without a deadline the clock does not matter.** -/
theorem run_congr (h : limits.deadline = none) (clock clock' : Clock) (fuel : Nat)
    (pass : Pass shape) : pass.run g limits clock fuel = pass.run g limits clock' fuel := by
  induction fuel generalizing pass with
  | zero => rfl
  | succ fuel ih =>
    have hstep : pass.step g limits (clock pass.incumbent.evaluations)
        = pass.step g limits (clock' pass.incumbent.evaluations) :=
      step_congr fun _ => PassLimits.reached?_congr h _ _ _
    rw [run, run, hstep]
    split
    · rfl
    · rfl
    · exact ih _

/-- Nor does it matter for what is evaluated. -/
theorem evaluations_congr (h : limits.deadline = none) (clock clock' : Clock) (fuel : Nat)
    (pass : Pass shape) :
    pass.evaluations g limits clock fuel = pass.evaluations g limits clock' fuel := by
  induction fuel generalizing pass with
  | zero => rfl
  | succ fuel ih =>
    have hreached : pass.move = .evaluate →
        limits.reached? pass.pivots (clock pass.incumbent.evaluations)
          = limits.reached? pass.pivots (clock' pass.incumbent.evaluations) :=
      fun _ => PassLimits.reached?_congr h _ _ _
    have hstep := step_congr (g := g) hreached
    unfold evaluations at ih ⊢
    rw [trace, trace, List.filter_cons, List.filter_cons, evaluates_congr hreached, hstep]
    cases pass.step g limits (clock' pass.incumbent.evaluations) with
    | error fault => rfl
    | ok r =>
      cases r with
      | inl o => rfl
      | inr next =>
        dsimp only
        rw [ih next]

/-- What is evaluated now is counted in the end. -/
theorem lt_pivots_of_evaluates (h : pass.run g limits clock fuel = .ok o)
    (heval : pass.evaluates limits clock = true) : pass.pivots < o.pivots := by
  have hcount := pivots_run h
  cases fuel with
  | zero => cases h
  | succ fuel =>
    rw [evaluations, trace, List.filter_cons, if_pos heval, List.length_cons] at hcount
    omega

/-- **A budget cuts a run short.**  The run with a budget makes the moves of the run
without limits until the budget is used up and a further label would be evaluated. -/
theorem run_atMost (h : pass.run g .none clock fuel = .ok o) (hk : pass.pivots ≤ k)
    (clock' : Clock) :
    ∃ o', pass.run g (.atMost k) clock' fuel = .ok o'
      ∧ pass.evaluations g (.atMost k) clock' fuel
        = (pass.evaluations g .none clock fuel).take (k - pass.pivots)
      ∧ o'.ending = if o.pivots ≤ k then .fullyLabeled else .pivotLimit := by
  induction fuel generalizing pass with
  | zero => cases h
  | succ fuel ih =>
    by_cases hcut : pass.move = .evaluate ∧ k ≤ pass.pivots
    · -- the budget is used up, and the run without limits evaluates once more
      obtain ⟨hev, hle⟩ := hcut
      have hstep : pass.step g (.atMost k) (clock' pass.incumbent.evaluations)
          = .ok (.inl (pass.outcome .pivotLimit)) := by
        rw [step, hev]
        dsimp only
        rw [PassLimits.reached?_atMost, if_pos hle]
      have hmore : pass.pivots < o.pivots :=
        lt_pivots_of_evaluates h (by rw [evaluates, hev]; rfl)
      refine ⟨pass.outcome .pivotLimit, ?_, ?_, ?_⟩
      · rw [run, hstep]
      · rw [evaluations_of_inl hstep, Nat.sub_eq_zero_of_le hle, List.take_zero]
      · rw [if_neg (show ¬ o.pivots ≤ k by omega)]
        rfl
    · -- both runs make the same move
      rw [run] at h
      have hsame : pass.move = .evaluate →
          (PassLimits.atMost k).reached? pass.pivots (clock' pass.incumbent.evaluations)
            = PassLimits.none.reached? pass.pivots (clock pass.incumbent.evaluations) := by
        intro hev
        rw [PassLimits.reached?_atMost, if_neg fun hle => hcut ⟨hev, hle⟩]
        rfl
      have hstep := step_congr (g := g) hsame
      have heq := evaluates_congr hsame
      cases hfree : pass.step g .none (clock pass.incumbent.evaluations) with
      | error fault =>
        rw [hfree] at h
        cases h
      | ok r =>
        rw [hfree] at h hstep
        rcases step_cases hfree with
          ⟨ending, rfl, -, hend⟩ | ⟨next, d, rfl, heval, -, hpivots⟩
            | ⟨next, rfl, heval, -, hpivots⟩
        · -- nothing but a finished walk ends the run without limits
          obtain ⟨rfl, -⟩ := hend.resolve_right (by rw [PassLimits.reached?_none]; simp)
          cases h
          refine ⟨_, by rw [run, hstep], ?_, ?_⟩
          · rw [evaluations_of_inl hstep, evaluations_of_inl hfree, List.take_nil]
          · exact (if_pos hk).symm
        · -- an evaluation, for which the budget has room
          have hroom : pass.pivots < k := by
            refine Nat.lt_of_not_le fun hle => hcut ⟨?_, hle⟩
            exact StandsAt.move_of_evaluates heval
          obtain ⟨o', hrun, htake, hend⟩ := ih h (by omega)
          refine ⟨o', by rw [run, hstep]; exact hrun, ?_, hend⟩
          have hsub : k - pass.pivots = k - next.pivots + 1 := by omega
          rw [evaluations_succ hstep, evaluations_succ hfree, heq, heval, if_pos rfl, if_pos rfl,
            hsub, List.take_succ_cons, htake]
        · obtain ⟨o', hrun, htake, hend⟩ := ih h (by omega)
          refine ⟨o', by rw [run, hstep]; exact hrun, ?_, hend⟩
          rw [evaluations_succ hstep, evaluations_succ hfree, heq, heval, if_neg (by decide),
            if_neg (by decide), htake, hpivots]

end Pass

/-! ## §4. Whole passes -/

section

variable {g : Game} {reference : Profile} {mesh : Rat} {leashLength : Nat}

/-- Without a deadline the clock has no say in a pass. -/
theorem runPass_congr {limits : PassLimits} (h : limits.deadline = none) (g : Game)
    (reference : Profile) (mesh : Rat) (leashLength : Nat) (incumbent : Incumbent)
    (clock clock' : Clock) :
    runPass g reference mesh leashLength incumbent limits clock
      = runPass g reference mesh leashLength incumbent limits clock' :=
  Pass.run_congr h clock clock' _ _

theorem passEvaluations_congr {limits : PassLimits} (h : limits.deadline = none) (g : Game)
    (reference : Profile) (mesh : Rat) (leashLength : Nat) (incumbent : Incumbent)
    (clock clock' : Clock) :
    passEvaluations g reference mesh leashLength incumbent limits clock
      = passEvaluations g reference mesh leashLength incumbent limits clock' :=
  Pass.evaluations_congr h clock clock' _ _

/-- **A budget of evaluations.**  A pass that may evaluate at most `k` labels has an
outcome.  It evaluates the first `k` labels of the pass without limits, or all of them if
there are no more, in the same states; it is fully labelled exactly if that is all of
them, and has come to its limit otherwise.  It counts what it evaluates, and its incumbent
is the one after these labels. -/
theorem runPass_atMost (h : IsPassStart g reference mesh leashLength) (incumbent : Incumbent)
    (clock clock' : Clock) (k : Nat) :
    ∃ n o, n = (passEvaluations g reference mesh leashLength incumbent .none clock).length
      ∧ runPass g reference mesh leashLength incumbent (.atMost k) clock' = .ok o
      ∧ passEvaluations g reference mesh leashLength incumbent (.atMost k) clock'
        = (passEvaluations g reference mesh leashLength incumbent .none clock).take (min k n)
      ∧ o.ending = (if n ≤ k then .fullyLabeled else .pivotLimit)
      ∧ o.pivots = min k n
      ∧ o.incumbent.evaluations = incumbent.evaluations + min k n
      ∧ incumbent.labelAll g
          ((evaluatedProfiles g reference mesh leashLength incumbent .none clock).take (min k n))
        = .ok o.incumbent := by
  obtain ⟨_, _, last, _, ending, _, _, hfree, -, hcount, -⟩ :=
    h.exists_runPass incumbent .none clock
  obtain ⟨o, hrun, htake, hend⟩ := Pass.run_atMost hfree (Nat.zero_le k) clock'
  generalize hn : (passEvaluations g reference mesh leashLength incumbent .none clock).length = n
    at hcount
  have hstates : passEvaluations g reference mesh leashLength incumbent (.atMost k) clock'
      = (passEvaluations g reference mesh leashLength incumbent .none clock).take (min k n) := by
    rw [← hn, ← List.take_eq_take_min]
    exact htake
  have hlength : (passEvaluations g reference mesh leashLength incumbent (.atMost k)
      clock').length = min k n := by
    rw [hstates, List.length_take, hn]
    omega
  have hprofiles : evaluatedProfiles g reference mesh leashLength incumbent (.atMost k) clock'
      = (evaluatedProfiles g reference mesh leashLength incumbent .none clock).take (min k n) := by
    unfold evaluatedProfiles
    rw [hstates, List.map_take]
  -- the incumbent has labelled what the pass has evaluated
  have hlabel := labelAll_evaluatedProfiles hrun
  have hevaluations := Incumbent.evaluations_labelAll hlabel
  rw [evaluatedProfiles, List.length_map, hlength] at hevaluations
  rw [hprofiles] at hlabel
  refine ⟨n, o, rfl, hrun, hstates, ?_, ?_, hevaluations, hlabel⟩
  · rw [hend, ← hcount]
    rfl
  · have hpivots := Pass.pivots_run hrun
    rw [← hlength]
    exact hpivots.trans (Nat.zero_add _)

theorem runPass_atMost_heads :
    (passEvaluations ClassicGame.matchingPennies.game.toGame heads (1 / 9) 9 ⟨2, heads, 0⟩ .none
        .stopped).length = 18
      ∧ (∃ o, runPass ClassicGame.matchingPennies.game.toGame heads (1 / 9) 9 ⟨2, heads, 0⟩
          (.atMost 17) .stopped = .ok o
        ∧ o.ending = .pivotLimit ∧ o.pivots = 17 ∧ o.incumbent.evaluations = 17)
      ∧ ∃ o, runPass ClassicGame.matchingPennies.game.toGame heads (1 / 9) 9 ⟨2, heads, 0⟩
          (.atMost 18) .stopped = .ok o
        ∧ o.ending = .fullyLabeled ∧ o.pivots = 18
        ∧ passEvaluations ClassicGame.matchingPennies.game.toGame heads (1 / 9) 9 ⟨2, heads, 0⟩
            (.atMost 18) .stopped
          = passEvaluations ClassicGame.matchingPennies.game.toGame heads (1 / 9) 9 ⟨2, heads, 0⟩
            .none .stopped := by
  have hlength : (passEvaluations ClassicGame.matchingPennies.game.toGame heads (1 / 9) 9
      ⟨2, heads, 0⟩ .none .stopped).length = 18 := by
    decide +kernel
  obtain ⟨n, o, hn, ho, -, hend, hpivots, hcount, -⟩ :=
    runPass_atMost isPassStart_heads ⟨2, heads, 0⟩ .stopped .stopped 17
  obtain ⟨n', o', hn', ho', hsame, hend', hpivots', -⟩ :=
    runPass_atMost isPassStart_heads ⟨2, heads, 0⟩ .stopped .stopped 18
  rw [hlength] at hn hn'
  subst hn hn'
  refine ⟨hlength, ⟨o, ho, hend, hpivots, hcount⟩, o', ho', hend', hpivots', ?_⟩
  rw [hsame]
  exact List.take_of_length_le hlength.le

end

end SimplicialNash
