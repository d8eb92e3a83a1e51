/-
  SimplicialNash.Proofs.Walk.Grid
  ───────────────────────────────
  Profiles on a grid.

  A grid is a raster around a normalized profile whose weights are whole meshes
  themselves.  No vertex of a valid cell is outside the grid, and grid steps
  move weight between strategies of one player only; so every vertex is a
  normalized profile (`Grid.isNormalized_vertex`).
-/
import Mathlib.Algebra.BigOperators.Ring.Finset
import SimplicialNash.Proofs.Walk.Raster

namespace SimplicialNash

open Label

/-! ## §1. Grids -/

/-- A grid: a raster around weights that are multiples of the mesh, and that sum
to one for every player. -/
structure Grid (shape : Shape) extends Raster shape where
  exact : ∀ l, reference.get l = mesh * (toRaster.units l : Rat)
  sum_reference : ∀ i < shape.length, ∑ l with l.player = i, reference.get l = 1

namespace Grid

variable {shape : Shape} {G : Grid shape} {i : Nat} {l : Label shape} {z : Heights shape}

instance : CoeOut (Grid shape) (Raster shape) := ⟨toRaster⟩

/-- The weight at a height, counted in meshes. -/
def weight (G : Grid shape) (z : Heights shape) (l : Label shape) : Int :=
  G.units l - G.room l + z l

@[simp] theorem get_reference (l : Label shape) :
    G.reference.get l = G.mesh * (G.units l : Rat) := G.exact l

@[simp] theorem get_point (z : Heights shape) (l : Label shape) :
    (G.point z).get l = G.mesh * (G.weight z l : Rat) := by
  rw [Raster.get_point, get_reference, weight]
  push_cast
  ring

/-- The reference weights of every player sum to one. -/
theorem sum_units (i : Nat) (hi : i < shape.length) :
    G.mesh * ∑ l with l.player = i, (G.units l : Rat) = 1 := by
  rw [Finset.mul_sum, ← G.sum_reference i hi]
  exact Finset.sum_congr rfl fun l _ => (G.exact l).symm

end Grid

/-! ## §2. Sums of weights -/

section

variable {shape : Shape} {closed : Label shape → Bool} {room : Label shape → Nat}
  {c : Cell shape} {p l : Label shape}

theorem Label.sum_one (l : Label shape) (i : Nat) :
    ∑ k with k.player = i, one (k = l) = one (l.player = i) := by
  by_cases h : l.player = i
  · rw [one_of h, Finset.sum_eq_single l]
    · exact one_of rfl
    · exact fun k _ hk => one_of_not hk
    · exact fun hl => absurd (Finset.mem_filter.mpr ⟨Finset.mem_univ l, h⟩) hl
  · rw [one_of_not h]
    refine Finset.sum_eq_zero fun k hk => one_of_not ?_
    rintro rfl
    exact h (Finset.mem_filter.mp hk).2

/-- A grid step moves weight between strategies of one player. -/
theorem Heights.sum_stepOnto (hs : IsSource closed p l) (z : Heights shape) (i : Nat) :
    ∑ k with k.player = i, z.stepOnto closed l k = ∑ k with k.player = i, z k := by
  have e : z.stepOnto closed l = fun k => z k + one (k = l) - one (k = p) :=
    funext fun k => Heights.stepOnto_apply hs z k
  rw [e, Finset.sum_sub_distrib, Finset.sum_add_distrib, Label.sum_one, Label.sum_one,
    hs.player_eq]
  omega

/-- Once around the circle, each strategy of a player follows one of them. -/
theorem Label.sum_next {M : Type} [AddCommMonoid M] (f : Label shape → M) (i : Nat) :
    ∑ k : Label shape with k.player = i, f k.next = ∑ k : Label shape with k.player = i, f k := by
  have hb : Function.Bijective (next : Label shape → Label shape) :=
    Finite.injective_iff_bijective.mp next_injective
  exact Finset.sum_bijective next hb (fun k => by simp) fun _ _ => rfl

/-- What the ledger has counted for a strategy, another one has lost. -/
theorem Cell.sum_base (room : Label shape → Nat) (c : Cell shape) (i : Nat) :
    ∑ k with k.player = i, c.base room k = ∑ k with k.player = i, (room k : Int) := by
  simp only [Cell.base]
  rw [Finset.sum_sub_distrib, Finset.sum_add_distrib, Label.sum_next c.steps i]
  omega

/-- **All vertices of a cell have the weights of every player in common, taken
together.** -/
theorem Cell.IsValid.sum_vertex (hv : c.IsValid room) (m i : Nat) :
    ∑ k with k.player = i, c.vertex room m k = ∑ k with k.player = i, (room k : Int) := by
  have hfold : ∀ (ls : List (Label shape)) (z : Heights shape),
      ∑ k with k.player = i, ls.foldl (Heights.stepOnto c.closed) z k
        = ∑ k with k.player = i, z k := by
    intro ls
    induction ls with
    | nil => exact fun _ => rfl
    | cons l ls ih =>
      intro z
      obtain ⟨p, hp⟩ := hv.exists_isSource l
      rw [List.foldl_cons, ih, Heights.sum_stepOnto hp]
  rw [Cell.vertex, hfold, Cell.sum_base]

end

/-! ## §3. Profiles on a grid -/

/-- All weights are integer multiples of the mesh. -/
def Profile.IsOnGrid (mesh : Rat) (p : Profile) : Prop := ∀ w ∈ p.values, ∃ k : Int, w = k * mesh

namespace Grid

variable {shape : Shape} {G : Grid shape} {c : Cell shape}

/-- Every point is on the grid. -/
theorem isOnGrid_point (z : Heights shape) : Profile.IsOnGrid G.mesh ⟨shape, G.point z⟩ := by
  intro w hw
  obtain ⟨l, rfl⟩ := StrategyTable.mem_toList.mp hw
  exact ⟨G.weight z l, by rw [get_point, mul_comm]⟩

/-- **Every vertex of a valid cell is a normalized profile.** -/
theorem isNormalized_vertex (hv : c.IsValid G.room) (m : Nat) :
    Profile.IsNormalized ⟨shape, G.point (c.vertex G.room m)⟩ := by
  rw [Profile.isNormalized_iff]
  constructor
  · -- what lies below the room is a weight that the walk does not touch
    intro l
    have h1 := hv.vertex_nonneg m l
    have h2 : G.room l ≤ G.units l := Nat.min_le_left _ _
    have h3 : (0 : Rat) ≤ G.weight (c.vertex G.room m) l := by
      exact_mod_cast (show 0 ≤ G.weight (c.vertex G.room m) l by unfold weight; omega)
    show 0 ≤ (G.point (c.vertex G.room m)).get l
    rw [get_point]
    exact mul_nonneg G.mesh_pos.le h3
  · -- grid steps leave the total of every player as it is at the reference vertex
    intro i hi
    have hsum : ∑ l with l.player = i, G.weight (c.vertex G.room m) l
        = ∑ l : Label shape with l.player = i, (G.units l : Int) := by
      simp only [weight]
      rw [Finset.sum_add_distrib, Finset.sum_sub_distrib, hv.sum_vertex]
      omega
    show ∑ l with l.player = i, (G.point (c.vertex G.room m)).get l = 1
    simp only [get_point]
    rw [← Finset.mul_sum, ← G.sum_units i hi]
    exact_mod_cast congrArg (fun s : Int => G.mesh * (s : Rat)) hsum

end Grid

section

variable {p : Profile} {mesh : Rat} {leash : Nat}

/-- A normalized profile is the reference vertex of a raster. -/
theorem Raster.exists_of_profile (hn : p.IsNormalized) (hm : 0 < mesh) (hl : 0 < leash) :
    ∃ G : Raster p.shape, G.mesh = mesh ∧ G.leash = leash ∧ G.reference = p.weights := by
  obtain ⟨hnonneg, hsum⟩ := p.isNormalized_iff.mp hn
  refine ⟨⟨p.weights, hnonneg, fun l => ?_, mesh, hm, leash, hl⟩, rfl, rfl, rfl⟩
  -- a player without weight would have nothing to sum up to one
  by_contra hno
  have hzero : ∑ k with k.player = l.player, p.weights.get k = 0 := by
    refine Finset.sum_eq_zero fun k hk => le_antisymm ?_ (hnonneg k)
    exact not_lt.mp fun hpos => hno ⟨k, (Finset.mem_filter.mp hk).2, hpos⟩
  exact zero_ne_one (hzero.symm.trans (hsum l.player l.player_lt))

/-- If its weights are multiples of the mesh, it is the reference vertex of a grid. -/
theorem Grid.exists_of_profile (hn : p.IsNormalized) (hg : p.IsOnGrid mesh) (hm : 0 < mesh)
    (hl : 0 < leash) :
    ∃ G : Grid p.shape, G.mesh = mesh ∧ G.leash = leash ∧ G.reference = p.weights := by
  obtain ⟨G, rfl, rfl, href⟩ := Raster.exists_of_profile hn hm hl
  obtain ⟨-, hsum⟩ := p.isNormalized_iff.mp hn
  rw [← href] at hsum
  refine ⟨⟨G, fun l => ?_, hsum⟩, rfl, rfl, href⟩
  -- a quotient that is whole already is not rounded
  obtain ⟨k, hk⟩ := hg _ (StrategyTable.mem_toList.mpr ⟨l, rfl⟩)
  rw [← href] at hk
  have h0 := G.nonneg l
  rw [hk] at h0
  obtain ⟨u, rfl⟩ := Int.eq_ofNat_of_zero_le
    (show 0 ≤ k by exact_mod_cast nonneg_of_mul_nonneg_left h0 hm)
  have hunits : G.units l = u := by
    rw [Raster.units, hk, mul_div_cancel_right₀ _ hm.ne', Int.cast_natCast, Nat.ceil_natCast]
  rw [hunits, hk, mul_comm, Int.cast_natCast]

end

end SimplicialNash
