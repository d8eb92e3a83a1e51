/-
  SimplicialNash.Proofs.Walk.Simulation
  ─────────────────────────────────────
  **Two passes side by side.**

  Suppose that every move of one pass is the image of a move of another.  Then a whole run is
  (`Pass.Simulation.run`), and the states in which labels are evaluated correspond one by one
  (`Pass.Simulation.evaluations`).  The moves are compared from the states of one of the
  passes, so they need to correspond only where these have a property that moves keep.

  That each vertex has the totals of the start is such a property (`Pass.isLevel_step`).

  Two passes may be allowed different numbers of moves.  This makes no difference between
  passes that end: what is left over is not used (`Pass.run_of_le`).
-/
import SimplicialNash.Proofs.Walk.Balance
import SimplicialNash.Proofs.Walk.Budget

namespace SimplicialNash

namespace Pass

variable {shape : Shape} {g g' : Game} {limits : PassLimits} {clock : Clock} {r : Point shape}
  {elapsed fuel fuel' : Nat} {pass next : Pass shape} {o : PassOutcome}

/-! ## §1. Images of a pass -/

/-- Each move of the image of a pass is the image of the pass's move, from all states with a
property that moves keep, and both evaluate labels at the same time. -/
structure Simulation (g g' : Game) (limits : PassLimits) (clock : Clock)
    (keeps : Pass shape → Prop) (image : Pass shape → Pass shape)
    (imageEnd : PassOutcome → PassOutcome) : Prop where
  step : ∀ {pass}, keeps pass →
    (image pass).step g' limits (clock (image pass).incumbent.evaluations)
      = (pass.step g limits (clock pass.incumbent.evaluations)).map (Sum.map imageEnd image)
  next : ∀ {pass next}, keeps pass →
    pass.step g limits (clock pass.incumbent.evaluations) = .ok (.inr next) → keeps next
  evaluates : ∀ pass, (image pass).evaluates limits clock = pass.evaluates limits clock

namespace Simulation

variable {keeps : Pass shape → Prop} {image : Pass shape → Pass shape}
  {imageEnd : PassOutcome → PassOutcome}

/-- **The end of a run** is the image of the other end. -/
theorem run (h : Simulation g g' limits clock keeps image imageEnd) (hp : keeps pass)
    (fuel : Nat) :
    (image pass).run g' limits clock fuel = (pass.run g limits clock fuel).map imageEnd := by
  induction fuel generalizing pass with
  | zero => rfl
  | succ fuel ih =>
    rw [Pass.run, Pass.run, h.step hp]
    cases hstep : pass.step g limits (clock pass.incumbent.evaluations) with
    | error fault => rfl
    | ok out =>
      cases out with
      | inl o => rfl
      | inr next => exact ih (h.next hp hstep)

/-- **The states of a run** are the images of the other states. -/
theorem trace (h : Simulation g g' limits clock keeps image imageEnd) (hp : keeps pass)
    (fuel : Nat) :
    (image pass).trace g' limits clock fuel = (pass.trace g limits clock fuel).map image := by
  induction fuel generalizing pass with
  | zero => rfl
  | succ fuel ih =>
    rw [Pass.trace, Pass.trace, h.step hp, List.map_cons]
    congr 1
    cases hstep : pass.step g limits (clock pass.incumbent.evaluations) with
    | error fault => rfl
    | ok out =>
      cases out with
      | inl o => rfl
      | inr next => exact ih (h.next hp hstep)

/-- **What is evaluated** corresponds one by one. -/
theorem evaluations (h : Simulation g g' limits clock keeps image imageEnd) (hp : keeps pass)
    (fuel : Nat) :
    (image pass).evaluations g' limits clock fuel
      = (pass.evaluations g limits clock fuel).map image := by
  have hsame : Pass.evaluates limits clock ∘ image = Pass.evaluates limits clock :=
    funext h.evaluates
  unfold Pass.evaluations
  rw [h.trace hp, List.filter_map, hsame]

end Simulation

/-! ## §2. Totals along the way -/

/-- The totals stay along the way. -/
theorem isLevel_step (hlevel : pass.simplex.IsLevel r)
    (hstep : pass.step g limits elapsed = .ok (.inr next)) : next.simplex.IsLevel r := by
  by_cases hfin : pass.move = .finish
  · rw [step, hfin] at hstep
    cases hstep
  by_cases hev : pass.move = .evaluate
  · rw [step, hev] at hstep
    dsimp only at hstep
    split at hstep
    · cases hstep
    · obtain ⟨after, hafter, hnext⟩ := exists_of_bind_eq_ok hstep
      cases hnext
      obtain ⟨labelled, -, hreceive⟩ := exists_of_bind_eq_ok hafter
      obtain ⟨⟨x, mv⟩, hx, hnext⟩ := exists_of_bind_eq_ok hreceive
      cases hnext
      exact hlevel.receive hx
  · rw [step_eq_advance hfin hev] at hstep
    obtain ⟨⟨x, mv⟩, hx, hnext⟩ := exists_of_bind_eq_ok hstep
    cases hnext
    exact hlevel.step hx

/-- All states of a run have the totals of its start. -/
theorem isLevel_of_mem_trace (hlevel : pass.simplex.IsLevel r)
    (hmem : next ∈ pass.trace g limits clock fuel) : next.simplex.IsLevel r :=
  trace_invariant (P := fun p => p.simplex.IsLevel r) hlevel (fun _ _ => isLevel_step) hmem

/-! ## §3. Moves left over -/

/-- **Moves left over are not used.**  A run that ends has the same end, and the same states
on its way, if more moves are allowed. -/
theorem run_of_le (h : pass.run g limits clock fuel = .ok o) (hle : fuel ≤ fuel') :
    pass.run g limits clock fuel' = .ok o
      ∧ pass.trace g limits clock fuel' = pass.trace g limits clock fuel := by
  induction fuel generalizing pass fuel' with
  | zero => cases h
  | succ fuel ih =>
    obtain ⟨fuel', rfl⟩ := Nat.exists_eq_succ_of_ne_zero (Nat.ne_zero_of_lt hle)
    rw [run] at h
    rw [run, trace, trace]
    cases hstep : pass.step g limits (clock pass.incumbent.evaluations) with
    | error fault =>
      rw [hstep] at h
      cases h
    | ok out =>
      rw [hstep] at h
      cases out with
      | inl o' => exact ⟨h, rfl⟩
      | inr next =>
        obtain ⟨hrun, htrace⟩ := ih h (Nat.le_of_succ_le_succ hle)
        exact ⟨hrun, congrArg (pass :: ·) htrace⟩

/-- Nor is anything more evaluated. -/
theorem evaluated_of_le (h : pass.run g limits clock fuel = .ok o) (hle : fuel ≤ fuel') :
    pass.evaluated g limits clock fuel' = pass.evaluated g limits clock fuel := by
  unfold evaluated
  rw [(run_of_le h hle).2]

end Pass

end SimplicialNash
