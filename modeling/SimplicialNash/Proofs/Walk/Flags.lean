/-
  SimplicialNash.Proofs.Walk.Flags
  ────────────────────────────────
  **What the flags of a walk say.**

  A strategy is triangulated while its label is on the path, and saturated while the walk keeps
  to the part of the boundary where its weight is used up.  No move checks that the two flags
  exclude each other, or that a saturated weight is still used up; both follow from where the
  walk stands (`Simplex.IsOn`):

      hasFlagsApart — no strategy is triangulated and saturated
      exists_free   — every player has a strategy that is neither
      used_up       — what is saturated is used up at every vertex

  Used up means a height of zero, and what that is in weight depends on the reference vertex
  (`Grid.used_up`): nothing at all, or a leash less than at the reference vertex, whichever
  comes first.

  Main statement: `flags_of_mem_passTrace`, for every state of a pass.
-/
import SimplicialNash.Proofs.Walk.Pass

namespace SimplicialNash

variable {shape : Shape}

/-! ## §1. Simplices on a grid -/

/-- **A weight is used up** where the height is zero. -/
theorem Grid.used_up (G : Grid shape) {z : Heights shape} {l : Label shape} (hz : z l = 0) :
    (G.point z).get l = 0
      ∨ G.reference.get l - (G.point z).get l = (G.leash : Rat) * G.mesh := by
  rw [Grid.get_reference, Grid.get_point, Grid.weight, hz, Raster.room]
  rcases Nat.le_total (G.units l) G.leash with hle | hle
  · -- the walk may take all of the weight away
    left
    rw [Nat.min_eq_left hle, sub_self, add_zero, Int.cast_zero, mul_zero]
  · -- the leash ends before the weight is gone
    right
    rw [Nat.min_eq_right hle]
    push_cast
    ring

namespace Simplex.IsOn

variable {G : Grid shape} {x : Simplex shape}

theorem exists_free (h : x.IsOn G) (l : Label shape) :
    ∃ k : Label shape, k.player = l.player ∧ x.isFixed k = false := by
  obtain ⟨k, hk, hfree⟩ := h.valid.exists_free l
  exact ⟨k, hk, h.isFixed_eq_false_iff.mpr hfree⟩

/-- **What is saturated is used up at every vertex.** -/
theorem used_up (h : x.IsOn G) (number : Nat) :
    ∃ y, x.vertex number = .ok y ∧ ∀ l, x.saturated.get l = true →
      y.get l = 0 ∨ G.reference.get l - y.get l = (G.leash : Rat) * G.mesh :=
  ⟨_, h.vertex_eq number, fun _ hl => G.used_up (h.valid.vertex_closed hl number)⟩

end Simplex.IsOn

/-! ## §2. States of a pass -/

section

variable {g : Game} {reference : Profile} {mesh : Rat} {leashLength : Nat}

/-- **The flags of a walk.**  In every state of a pass, triangulated strategies are not
saturated.  As long as the walk goes on, every player has a strategy that is neither, and
saturated strategies are used up at all vertices of the simplex. -/
theorem flags_of_mem_passTrace (h : IsPassStart g reference mesh leashLength)
    {incumbent : Incumbent} {limits : PassLimits} {clock : Clock} {p : Pass reference.shape}
    (hp : p ∈ passTrace g reference mesh leashLength incumbent limits clock) :
    (∀ l, ¬ (p.simplex.triangulated.get l = true ∧ p.simplex.saturated.get l = true))
      ∧ (p.move ≠ .finish →
        (∀ i < reference.shape.length, ∃ l : Label reference.shape,
          l.player = i ∧ p.simplex.triangulated.get l = false ∧ p.simplex.saturated.get l = false)
        ∧ ∀ i ≤ p.simplex.path.length, ∃ y, p.simplex.vertex i = .ok y
          ∧ ∀ l, p.simplex.saturated.get l = true →
            y.get l = 0 ∨ reference.weights.get l - y.get l = leashLength * mesh) := by
  obtain ⟨G, f, n, rfl, rfl, href, hat⟩ := h.exists_standsAt_of_mem hp
  refine ⟨hat.hasFlagsApart, fun hm => ⟨fun i hi => ?_, fun i _ => ?_⟩⟩
  · obtain ⟨l, rfl, hfree⟩ :=
      (hat.isOn hm).exists_free ⟨i, 0, Shape.count_pos h.isNormalized.zero_notMem hi⟩
    exact ⟨l, rfl, Bool.or_eq_false_iff.mp hfree⟩
  · rw [← href]
    exact (hat.isOn hm).used_up i

/-- Row never plays Bottom; all else is played evenly. -/
def evenWithoutBottom : Profile :=
  ⟨[3, 2], .tabulate fun l => if l.player = 0 ∧ l.strategy = 2 then 0 else 1 / 2⟩

theorem isPassStart_evenWithoutBottom :
    IsPassStart ClassicGame.dominantRow.game.toGame evenWithoutBottom (1 / 6) 2 where
  players := by decide +kernel
  shape_eq := by decide +kernel
  isNormalized := by decide +kernel
  mesh_pos := by decide +kernel
  isOnGrid := by
    intro w hw
    obtain ⟨l, rfl⟩ := StrategyTable.mem_toList.mp hw
    refine ⟨if l.player = 0 ∧ l.strategy = 2 then 0 else 3,
      (StrategyTable.get_tabulate _ l).trans ?_⟩
    split <;> norm_num
  leash_pos := by decide

/-- On its way to Bottom, Row comes to the end of the leash at Middle. -/
theorem flags_of_mem_passTrace_evenWithoutBottom :
    ∃ p ∈ passTrace ClassicGame.dominantRow.game.toGame evenWithoutBottom (1 / 6) 2
        ⟨3, evenWithoutBottom, 0⟩ .none .stopped,
      p.move ≠ .finish ∧ p.simplex.triangulated.toList = [false, false, true, false, false]
        ∧ p.simplex.saturated.toList = [false, true, false, false, false]
        ∧ p.profile.values = [1 / 3, 1 / 6, 1 / 2, 1 / 2, 1 / 2]
        ∧ ∀ i ≤ p.simplex.path.length, ∃ y, p.simplex.vertex i = .ok y
          ∧ ∀ l, p.simplex.saturated.get l = true →
            y.get l = 0 ∨ evenWithoutBottom.weights.get l - y.get l = (2 : Nat) * (1 / 6) := by
  obtain ⟨p, hp, hm, htriangulated, hsaturated, hvalues⟩ :
      ∃ p ∈ passTrace ClassicGame.dominantRow.game.toGame evenWithoutBottom (1 / 6) 2
          ⟨3, evenWithoutBottom, 0⟩ .none .stopped,
        p.move ≠ .finish ∧ p.simplex.triangulated.toList = [false, false, true, false, false]
          ∧ p.simplex.saturated.toList = [false, true, false, false, false]
          ∧ p.profile.values = [1 / 3, 1 / 6, 1 / 2, 1 / 2, 1 / 2] := by
    decide +kernel
  exact ⟨p, hp, hm, htriangulated, hsaturated, hvalues,
    ((flags_of_mem_passTrace isPassStart_evenWithoutBottom hp).2 hm).2⟩

end

end SimplicialNash
