/-
  SimplicialNash.Proofs.Walk.Raster
  ─────────────────────────────────
  Points that lie whole meshes apart, and the whole numbers that they stand for.

  A walk moves whole meshes of weight, so it comes to points that lie whole
  meshes away from its reference vertex.  `Raster.point` takes heights, counted
  in meshes above the lowest weight that is allowed, to the point that the
  program keeps; grid steps, the base and all vertices of a simplex correspond
  (`stepOnto_eq`, `base_eq`, `vertex_eq`), and a weight is exhausted where the
  height is zero (`isExhausted_iff`).

  The reference weights themselves may be any numbers that are not negative.  A
  weight that is no multiple of the mesh is used up by the step that takes it
  below zero, so what counts is the quotient rounded up (`Raster.units`).
-/
import Mathlib.Data.Rat.Floor
import Mathlib.Tactic.Linarith
import Mathlib.Tactic.Ring
import SimplicialNash.Proofs.Walk.Chain
import SimplicialNash.Proofs.Walk.Simplex

namespace SimplicialNash

open Label

/-! ## §1. Rasters -/

/-- Weight that is moved arrives at one strategy and is missing at the other. -/
theorem Point.get_transfer {shape : Shape} (y : Point shape) (a b : Label shape) (w : Rat)
    (k : Label shape) :
    (y.transfer a b w).get k
      = y.get k + (if k = b then w else 0) - (if k = a then w else 0) := by
  simp only [Point.transfer, StrategyTable.modify, StrategyTable.get_set_eq]
  by_cases ha : a = k <;> by_cases hb : b = k
  · subst ha hb
    simp
  · subst ha
    simp [hb, Ne.symm hb]
  · subst hb
    simp [ha, Ne.symm ha]
  · simp [ha, hb, Ne.symm ha, Ne.symm hb]

/-- A raster: the vertex that a walk begins at, the mesh, and the leash counted
in meshes.  Every player has some weight. -/
structure Raster (shape : Shape) where
  reference : Point shape
  nonneg : ∀ l, 0 ≤ reference.get l
  exists_pos : ∀ l : Label shape, ∃ k, k.player = l.player ∧ 0 < reference.get k
  mesh : Rat
  mesh_pos : 0 < mesh
  leash : Nat
  leash_pos : 0 < leash

namespace Raster

variable {shape : Shape} {G : Raster shape} {a b k l p : Label shape} {z : Heights shape}

/-- How many meshes use up the reference weight. -/
def units (G : Raster shape) (l : Label shape) : Nat := ⌈G.reference.get l / G.mesh⌉₊

/-- By how many meshes a weight may fall below that of the reference vertex. -/
def room (G : Raster shape) (l : Label shape) : Nat := min (G.units l) G.leash

/-- The point with given heights. -/
def point (G : Raster shape) (z : Heights shape) : Point shape :=
  .tabulate fun l => G.reference.get l + G.mesh * ((z l - G.room l : Int) : Rat)

theorem get_point (z : Heights shape) (l : Label shape) :
    (G.point z).get l = G.reference.get l + G.mesh * ((z l - G.room l : Int) : Rat) :=
  StrategyTable.get_tabulate _ _

theorem room_le (l : Label shape) : G.room l ≤ G.leash := Nat.min_le_right _ _

/-- Whole meshes that use up the reference weight. -/
theorem units_le_iff (n : Nat) : G.units l ≤ n ↔ G.reference.get l ≤ G.mesh * n := by
  rw [units, Nat.ceil_le, div_le_iff₀ G.mesh_pos, mul_comm]

theorem room_eq_zero_iff : G.room l = 0 ↔ G.reference.get l = 0 := by
  have hunits : G.units l = 0 ↔ G.reference.get l ≤ 0 := by
    have h := G.units_le_iff (l := l) 0
    rwa [Nat.le_zero, Nat.cast_zero, mul_zero] at h
  have hleash := G.leash_pos
  have hnonneg := G.nonneg l
  rw [room, Nat.min_eq_zero_iff, hunits]
  constructor
  · rintro (h | h)
    · exact le_antisymm h hnonneg
    · omega
  · exact fun h => Or.inl h.le

/-- Every player has some room. -/
theorem exists_room_pos (l : Label shape) : ∃ k, k.player = l.player ∧ 0 < G.room k := by
  obtain ⟨k, hk, hpos⟩ := G.exists_pos l
  exact ⟨k, hk, Nat.pos_of_ne_zero fun hzero => hpos.ne' (room_eq_zero_iff.mp hzero)⟩

/-- **One mesh is moved from one strategy to another.** -/
theorem transfer_point (z : Heights shape) (a b : Label shape) :
    (G.point z).transfer a b G.mesh = G.point fun k => z k + one (k = b) - one (k = a) := by
  refine StrategyTable.ext_get fun k => ?_
  rw [Point.get_transfer, get_point, get_point]
  by_cases hb : k = b <;> by_cases ha : k = a
  · rw [if_pos hb, if_pos ha, one_of hb, one_of ha]
    push_cast
    ring
  · rw [if_pos hb, if_neg ha, one_of hb, one_of_not ha]
    push_cast
    ring
  · rw [if_neg hb, if_pos ha, one_of_not hb, one_of ha]
    push_cast
    ring
  · rw [if_neg hb, if_neg ha, one_of_not hb, one_of_not ha]
    push_cast
    ring

/-- **A grid step** moves one mesh from the source of a label to the label. -/
theorem point_stepOnto {closed : Label shape → Bool} (hs : IsSource closed p l)
    (z : Heights shape) :
    G.point (z.stepOnto closed l) = (G.point z).transfer p l G.mesh := by
  have e : z.stepOnto closed l = fun k => z k + one (k = l) - one (k = p) :=
    funext fun k => Heights.stepOnto_apply hs z k
  rw [e, transfer_point]

end Raster

/-! ## §2. Simplices on a raster -/

section

variable {shape : Shape} {G : Raster shape} {x : Simplex shape} {k l p : Label shape}
  {z : Heights shape}

/-- A simplex on a raster, with all its bookkeeping. -/
structure Simplex.IsOn (G : Raster shape) (x : Simplex shape) : Prop where
  mesh : x.mesh = G.mesh
  leash : x.leash = G.mesh * G.leash
  reference : x.reference = G.reference
  triangulated : ∀ l, x.triangulated.get l = decide (l ∈ x.path)
  valid : x.cell.IsValid G.room

/-- The ledger leaves nothing out where a free strategy has no count. -/
theorem Simplex.ledger_eq_steps (h : x.isFixed l = false → x.steps.get l = 0) :
    x.ledger l = x.steps.get l := by
  unfold ledger
  split
  · rfl
  · next hf => exact (h (by simpa using hf)).symm

namespace Simplex.IsOn

theorem isFixed_eq_false_iff (h : x.IsOn G) : x.isFixed l = false ↔ x.cell.IsFree l := by
  rw [Simplex.isFixed, Bool.or_eq_false_iff, h.triangulated, decide_eq_false_iff_not]
  rfl

/-- A free strategy is not in the ledger. -/
theorem ledger_eq (h : x.IsOn G) (l : Label shape) : x.ledger l = x.steps.get l :=
  Simplex.ledger_eq_steps fun hf => h.valid.steps_free l (h.isFixed_eq_false_iff.mp hf)

/-- The base vertex. -/
theorem base_eq (h : x.IsOn G) : x.base = G.point (x.cell.base G.room) := by
  refine StrategyTable.ext_get fun l => ?_
  rw [Simplex.base, StrategyTable.get_tabulate, h.ledger_eq, h.ledger_eq, h.reference, h.mesh,
    Raster.get_point, Cell.base]
  simp only [Simplex.cell]
  push_cast
  ring

end Simplex.IsOn

/-- A grid step. -/
theorem Simplex.stepOnto_eq (hm : x.mesh = G.mesh) (hs : IsSource x.saturated.get p l) :
    x.stepOnto (G.point z) l = .ok (G.point (z.stepOnto x.saturated.get l)) := by
  rw [Simplex.stepOnto, Simplex.predecessor_eq hs, hm, Raster.point_stepOnto hs]
  rfl

/-- Grid steps one after another. -/
theorem Simplex.stepsOnto_eq (hm : x.mesh = G.mesh) (hs : ∀ l, ∃ p, IsSource x.saturated.get p l)
    (ls : List (Label shape)) (z : Heights shape) :
    x.stepsOnto (G.point z) ls = .ok (G.point (ls.foldl (Heights.stepOnto x.saturated.get) z)) := by
  induction ls generalizing z with
  | nil => rfl
  | cons l ls ih =>
    obtain ⟨p, hp⟩ := hs l
    have h1 := ih (z.stepOnto x.saturated.get l)
    rw [Simplex.stepsOnto] at h1 ⊢
    rw [List.foldlM_cons, Simplex.stepOnto_eq hm hp, List.foldl_cons]
    exact h1

namespace Simplex.IsOn

/-- **Every vertex.** -/
theorem vertex_eq (h : x.IsOn G) (number : Nat) :
    x.vertex number = .ok (G.point (x.cell.vertex G.room number)) := by
  rw [Simplex.vertex, h.base_eq,
    Simplex.stepsOnto_eq h.mesh (fun l => h.valid.exists_isSource l)]
  rfl

end Simplex.IsOn

/-- **A weight is exhausted where the height is zero.** -/
theorem Simplex.isExhausted_iff (hl : x.leash = G.mesh * G.leash) (hr : x.reference = G.reference)
    (hc : x.current = G.point z) : x.isExhausted l = true ↔ z l ≤ 0 := by
  have hpos := G.mesh_pos
  have hnonneg := G.nonneg l
  -- how many meshes the weight is below that of the reference vertex
  generalize hn : (G.room l - z l : Int) = n
  have hy : x.current.get l = G.reference.get l - G.mesh * (n : Rat) := by
    rw [hc, Raster.get_point, ← hn]
    push_cast
    ring
  have hzero : x.current.get l ≤ 0 ↔ (G.units l : Int) ≤ n := by
    rw [hy, sub_nonpos]
    constructor
    · intro h
      have hn0 : 0 ≤ n := by
        exact_mod_cast nonneg_of_mul_nonneg_right (hnonneg.trans h) hpos
      obtain ⟨m, rfl⟩ := Int.eq_ofNat_of_zero_le hn0
      exact_mod_cast (G.units_le_iff m).mpr (by exact_mod_cast h)
    · intro h
      obtain ⟨m, rfl⟩ := Int.eq_ofNat_of_zero_le ((Int.natCast_nonneg _).trans h)
      exact_mod_cast (G.units_le_iff m).mp (by exact_mod_cast h)
  have hleash : x.leash ≤ x.reference.get l - x.current.get l ↔ (G.leash : Int) ≤ n := by
    rw [hl, hr, hy, sub_sub_cancel, mul_le_mul_iff_right₀ hpos]
    exact_mod_cast Iff.rfl
  rw [Simplex.isExhausted, Bool.or_eq_true, decide_eq_true_eq, decide_eq_true_eq, hzero, hleash]
  unfold Raster.room at hn
  omega

end

/-! ## §3. The start -/

namespace Raster

variable {shape : Shape}

theorem cell_start (G : Raster shape) :
    (Simplex.start G.reference G.mesh G.leash).cell = Cell.start G.room := by
  refine Cell.ext rfl ?_ ?_
  · funext l
    simp only [Simplex.cell, Simplex.start, StrategyTable.get_map, Cell.start]
    rw [Bool.eq_iff_iff, beq_iff_eq, decide_eq_true_iff, room_eq_zero_iff]
  · funext l
    simp [Simplex.cell, Simplex.start, Cell.start]

/-- A walk begins on its raster. -/
theorem isOn_start (G : Raster shape) : (Simplex.start G.reference G.mesh G.leash).IsOn G := by
  refine ⟨rfl, rfl, rfl, fun l => ?_, ?_⟩
  · simp [Simplex.start]
  · rw [cell_start]
    exact Cell.isValid_start exists_room_pos

/-- The reference vertex as a vertex of the start. -/
theorem reference_eq (G : Raster shape) :
    G.reference = G.point ((Cell.start G.room).vertex G.room 0) := by
  refine StrategyTable.ext_get fun l => ?_
  rw [get_point, Cell.vertex_zero, Cell.base]
  simp [Cell.start]

end Raster

end SimplicialNash
