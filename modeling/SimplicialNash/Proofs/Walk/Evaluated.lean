/-
  SimplicialNash.Proofs.Walk.Evaluated
  ────────────────────────────────────
  **What a pass evaluates is all that its incumbent learns of.**

  A move either evaluates the profile that is looked at, and the incumbent takes it in,
  or it leaves the incumbent alone (`Pass.step_cases`).  So the incumbent at the end of
  a pass is the one at the start after all evaluated profiles have been labelled in
  order (`labelAll_evaluatedProfiles`), and the earliest of the best profiles seen
  before the pass and in it (`isFirstLeast_of_runPass`).

  No grid is needed for this: it holds of every reference profile and every mesh.
-/
import SimplicialNash.Proofs.Incumbent
import SimplicialNash.Proofs.Walk.Pass

namespace SimplicialNash

/-! ## §1. One move -/

namespace Pass

variable {shape : Shape} {g : Game} {limits : PassLimits} {clock : Clock} {fuel : Nat}
  {pass : Pass shape} {o : PassOutcome}

/-- **What a move does to the incumbent.**  The pass ends, because the walk is finished
or a limit is reached; or it evaluates the profile that is looked at, and counts the
evaluation; or it does not evaluate, and incumbent and count stay. -/
theorem step_cases {r : PassOutcome ⊕ Pass shape}
    (h : pass.step g limits (clock pass.incumbent.evaluations) = .ok r) :
    (∃ ending, r = .inl (pass.outcome ending) ∧ pass.evaluates limits clock = false
        ∧ (ending = .fullyLabeled ∧ pass.move = .finish
          ∨ limits.reached? pass.pivots (clock pass.incumbent.evaluations) = some ending))
      ∨ (∃ next d, r = .inr next ∧ pass.evaluates limits clock = true
        ∧ pass.incumbent.label g pass.profile = .ok (d, next.incumbent)
        ∧ next.pivots = pass.pivots + 1)
      ∨ ∃ next, r = .inr next ∧ pass.evaluates limits clock = false
        ∧ next.incumbent = pass.incumbent ∧ next.pivots = pass.pivots := by
  by_cases hfin : pass.move = .finish
  · rw [step, hfin] at h
    refine Or.inl ⟨.fullyLabeled, (Except.ok.inj h).symm, ?_, Or.inl ⟨rfl, hfin⟩⟩
    rw [evaluates, hfin]
    rfl
  by_cases hev : pass.move = .evaluate
  · rw [step, hev] at h
    dsimp only at h
    cases hl : limits.reached? pass.pivots (clock pass.incumbent.evaluations) with
    | some ending =>
      rw [hl] at h
      refine Or.inl ⟨ending, (Except.ok.inj h).symm, ?_, Or.inr rfl⟩
      rw [evaluates, hl, Option.isNone_some, Bool.and_false]
    | none =>
      rw [hl] at h
      obtain ⟨next, hnext, hr⟩ := exists_of_bind_eq_ok h
      obtain ⟨⟨d, incumbent⟩, hlabel, hreceive⟩ := exists_of_bind_eq_ok hnext
      obtain ⟨⟨x, mv⟩, -, hpass⟩ := exists_of_bind_eq_ok hreceive
      obtain rfl := Except.ok.inj hpass
      refine Or.inr (Or.inl ⟨_, d, (Except.ok.inj hr).symm, ?_, hlabel, rfl⟩)
      rw [evaluates, hev, hl]
      rfl
  · rw [step_eq_advance hfin hev] at h
    obtain ⟨⟨x, mv⟩, -, hr⟩ := exists_of_bind_eq_ok h
    refine Or.inr (Or.inr ⟨_, (Except.ok.inj hr).symm, ?_, rfl, rfl⟩)
    rw [evaluates, beq_eq_false_iff_ne.mpr hev, Bool.false_and]

/-! ## §2. Runs -/

/-- The profiles that are evaluated in at most `fuel` moves, in order. -/
def evaluated (g : Game) (limits : PassLimits) (clock : Clock) (fuel : Nat) (pass : Pass shape) :
    List Profile :=
  ((pass.trace g limits clock fuel).filter (evaluates limits clock)).map profile

/-- **A run labels what it evaluates.** -/
theorem labelAll_evaluated (h : pass.run g limits clock fuel = .ok o) :
    pass.incumbent.labelAll g (pass.evaluated g limits clock fuel) = .ok o.incumbent := by
  induction fuel generalizing pass with
  | zero => cases h
  | succ fuel ih =>
    unfold evaluated
    rw [run] at h
    rw [trace, List.filter_cons]
    cases hstep : pass.step g limits (clock pass.incumbent.evaluations) with
    | error fault =>
      rw [hstep] at h
      cases h
    | ok r =>
      rw [hstep] at h
      rcases step_cases hstep with
        ⟨ending, rfl, heval, -⟩ | ⟨next, d, rfl, heval, hlabel, -⟩ | ⟨next, rfl, heval, hinc, -⟩
      · -- the pass ends
        cases h
        rw [heval, if_neg (by decide)]
        rfl
      · -- the profile is labelled first, and then what the rest of the run evaluates
        rw [heval, if_pos rfl, List.map_cons, Incumbent.labelAll_cons hlabel]
        exact ih h
      · rw [heval, if_neg (by decide), ← hinc]
        exact ih h

/-- Where a label is evaluated, the profile is that of a vertex on the grid. -/
theorem StandsAt.isNormalized_profile {G : Grid shape} {f : Heights shape → Label shape} {n : Nat}
    (h : StandsAt g G f n pass) (hm : pass.move = .evaluate) :
    pass.profile.IsNormalized ∧ pass.profile.IsOnGrid G.mesh := by
  obtain ⟨a, -, hst⟩ := h
  rw [hm] at hst
  cases hst with
  | evaluate hpending =>
    rw [profile, hpending.current]
    exact ⟨Grid.isNormalized_vertex hpending.isOn.valid _, Grid.isOnGrid_point _⟩

end Pass

/-! ## §3. Whole passes -/

/-- The profiles that a pass evaluates, in order. -/
def evaluatedProfiles (g : Game) (reference : Profile) (mesh : Rat) (leashLength : Nat)
    (incumbent : Incumbent) (limits : PassLimits) (clock : Clock) : List Profile :=
  (passEvaluations g reference mesh leashLength incumbent limits clock).map Pass.profile

section

variable {g : Game} {reference p : Profile} {mesh : Rat} {leashLength : Nat}
  {incumbent : Incumbent} {limits : PassLimits} {clock : Clock} {o : PassOutcome}
  {seen : List Profile}

/-- **A pass labels what it evaluates.** -/
theorem labelAll_evaluatedProfiles
    (h : runPass g reference mesh leashLength incumbent limits clock = .ok o) :
    incumbent.labelAll g (evaluatedProfiles g reference mesh leashLength incumbent limits clock)
      = .ok o.incumbent :=
  Pass.labelAll_evaluated h

/-- **The incumbent after a pass** is the earliest of the best profiles seen. -/
theorem isFirstLeast_of_runPass
    (h : runPass g reference mesh leashLength incumbent limits clock = .ok o)
    (hinc : g.IsFirstLeast seen incumbent.profile incumbent.regret) :
    g.IsFirstLeast
      (seen ++ evaluatedProfiles g reference mesh leashLength incumbent limits clock)
      o.incumbent.profile o.incumbent.regret :=
  Incumbent.isFirstLeast_labelAll hinc (labelAll_evaluatedProfiles h)

/-- On the grid, what is evaluated is a profile of the game. -/
theorem isNormalized_of_mem_evaluatedProfiles
    (h : IsPassStart g reference mesh leashLength)
    (hp : p ∈ evaluatedProfiles g reference mesh leashLength incumbent limits clock) :
    p.shape = g.shape ∧ p.IsNormalized ∧ p.IsOnGrid mesh := by
  obtain ⟨state, hstate, rfl⟩ := List.mem_map.mp hp
  obtain ⟨htrace, heval⟩ := List.mem_filter.mp hstate
  obtain ⟨G, f, n, rfl, _, _, hat⟩ := h.exists_standsAt_of_mem htrace
  exact ⟨h.shape_eq, hat.isNormalized_profile (Pass.StandsAt.move_of_evaluates heval)⟩

end

end SimplicialNash
