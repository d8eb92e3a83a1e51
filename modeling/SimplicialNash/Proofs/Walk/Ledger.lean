/-
  SimplicialNash.Proofs.Walk.Ledger
  ─────────────────────────────────
  **What the ledger of a walk can hold.**

  Moves add one to the counts of a run of strategies, or take one away; each looks at one of
  these counts at most before it does.  Still no count is ever negative, and none is more than
  the leash for every other strategy of its player: some strategy of the player is free and has
  no count, and from one strategy to the next the ledger grows by no more than the walk may take
  from the weight between them (`Cell.IsValid.steps_le_count`).

  Free strategies have no count, so the ledger, which passes over them when the base is
  computed, leaves nothing out.  All this is still so when the walk is finished, although the
  simplex it ends in need not be one of the grid.

  Main statement: `steps_of_mem_passTrace`, for every state of a pass.
-/
import SimplicialNash.Proofs.Walk.Flags

namespace SimplicialNash

variable {shape : Shape}

/-! ## §1. Where a pass stands -/

namespace Pass.StandsAt

variable {g : Game} {G : Raster shape} {f : Heights shape → Label shape} {n : Nat}
  {pass : Pass shape}

theorem steps_nonneg (h : StandsAt g G f n pass) (l : Label shape) :
    0 ≤ pass.simplex.steps.get l := by
  obtain ⟨a, -, hst⟩ := h
  obtain ⟨c, hc, hsteps, -⟩ := hst.exists_cell
  rw [hsteps]
  exact hc.steps_nonneg l

/-- **No count is more than the leash for each other strategy of the player.** -/
theorem steps_le (h : StandsAt g G f n pass) (l : Label shape) :
    pass.simplex.steps.get l ≤ ((shape.count l.player - 1) * G.leash : Nat) := by
  obtain ⟨a, -, hst⟩ := h
  obtain ⟨c, hc, hsteps, -⟩ := hst.exists_cell
  rw [hsteps]
  exact hc.steps_le_count Raster.room_le l

/-- **What is free has no count.** -/
theorem steps_eq_zero (h : StandsAt g G f n pass) {l : Label shape}
    (hl : pass.simplex.isFixed l = false) : pass.simplex.steps.get l = 0 := by
  obtain ⟨a, -, hst⟩ := h
  obtain ⟨c, hc, hsteps, hfree⟩ := hst.exists_cell
  rw [hsteps]
  exact hc.steps_free l (hfree l hl)

end Pass.StandsAt

/-! ## §2. States of a pass -/

section

variable {g : Game} {reference : Profile} {mesh : Rat} {leashLength : Nat}

/-- **The ledger of a walk.**  In every state of a pass, the count of a strategy is not negative,
and it is no more than the leash for each other strategy of the player.  What is neither
triangulated nor saturated has no count, so what the ledger shows is the count.  If the bound is
below `2 ^ 63`, so that it is a signed word of 64 bits, the count is one. -/
theorem steps_of_mem_passTrace (h : IsPassStart g reference mesh leashLength)
    {incumbent : Incumbent} {limits : PassLimits} {clock : Clock} {p : Pass reference.shape}
    (hp : p ∈ passTrace g reference mesh leashLength incumbent limits clock)
    (l : Label reference.shape) :
    0 ≤ p.simplex.steps.get l
      ∧ p.simplex.steps.get l ≤ ((reference.shape.count l.player - 1) * leashLength : Nat)
      ∧ (p.simplex.triangulated.get l = false → p.simplex.saturated.get l = false →
          p.simplex.steps.get l = 0)
      ∧ p.simplex.ledger l = p.simplex.steps.get l
      ∧ ((reference.shape.count l.player - 1) * leashLength < 2 ^ 63 →
          (Int64.ofInt (p.simplex.steps.get l)).toInt = p.simplex.steps.get l) := by
  obtain ⟨G, f, n, rfl, rfl, -, hat⟩ := h.exists_standsAt_of_mem hp
  have hnonneg := hat.steps_nonneg l
  have hle := hat.steps_le l
  refine ⟨hnonneg, hle, fun ht hs => ?_, Simplex.ledger_eq_steps hat.steps_eq_zero,
    fun hword => ?_⟩
  · exact hat.steps_eq_zero (Bool.or_eq_false_iff.mpr ⟨ht, hs⟩)
  · exact Int64.toInt_ofInt_of_le (by omega) (by omega)

/-- When Row has come as near to Bottom as the leash lets it, three steps have been counted for
Bottom, and one for Middle, which was at the end of the leash before. -/
theorem steps_of_mem_passTrace_evenWithoutBottom :
    ∃ p ∈ passTrace ClassicGame.dominantRow.game.toGame evenWithoutBottom (1 / 6) 2
        ⟨3, evenWithoutBottom, 0⟩ .none .stopped,
      p.move = .finish ∧ p.simplex.steps.toList = [0, 1, 3, 0, 0]
        ∧ ∀ l, 0 ≤ p.simplex.steps.get l
          ∧ p.simplex.steps.get l ≤ ((evenWithoutBottom.shape.count l.player - 1) * 2 : Nat)
          ∧ (p.simplex.triangulated.get l = false → p.simplex.saturated.get l = false →
              p.simplex.steps.get l = 0)
          ∧ p.simplex.ledger l = p.simplex.steps.get l
          ∧ ((evenWithoutBottom.shape.count l.player - 1) * 2 < 2 ^ 63 →
              (Int64.ofInt (p.simplex.steps.get l)).toInt = p.simplex.steps.get l) := by
  obtain ⟨p, hp, hm, hsteps⟩ :
      ∃ p ∈ passTrace ClassicGame.dominantRow.game.toGame evenWithoutBottom (1 / 6) 2
          ⟨3, evenWithoutBottom, 0⟩ .none .stopped,
        p.move = .finish ∧ p.simplex.steps.toList = [0, 1, 3, 0, 0] := by
    decide +kernel
  exact ⟨p, hp, hm, hsteps, steps_of_mem_passTrace isPassStart_evenWithoutBottom hp⟩

end

end SimplicialNash
