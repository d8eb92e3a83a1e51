/-
  SimplicialNash.Proofs.Walk.Balance
  ──────────────────────────────────
  **No move changes what a player's weights add up to.**

  A walk displaces its vertices in two ways only: it moves weight between strategies of
  one player (`Point.rowTotal_transfer`), and it goes back to the base, which the ledger
  displaces so that what one strategy has gained another one has lost
  (`Simplex.rowTotal_base`).  So all vertices have the totals of the reference vertex
  (`Simplex.IsLevel.step`).

  Nothing here needs a grid: weights may be negative, and the mesh may be any number.
-/
import SimplicialNash.Proofs.Walk.Grid

namespace SimplicialNash

open Label

variable {shape : Shape} {x x' : Simplex shape} {r y z : Point shape} {a b l p : Label shape}
  {i : Nat}

/-! ## §1. Totals -/

/-- What the weights of a player add up to. -/
def Point.rowTotal (y : Point shape) (i : Nat) : Rat := ∑ l with l.player = i, y.get l

/-- **Weight stays with its player.** -/
theorem Point.rowTotal_transfer (hab : b.player = a.player) (y : Point shape) (w : Rat) (i : Nat) :
    (y.transfer a b w).rowTotal i = y.rowTotal i := by
  have hmem : (b ∈ ({k | k.player = i} : Finset (Label shape)))
      ↔ a ∈ ({k | k.player = i} : Finset (Label shape)) := by
    simp [hab]
  unfold rowTotal
  simp only [get_transfer]
  rw [Finset.sum_sub_distrib, Finset.sum_add_distrib, Finset.sum_ite_eq', Finset.sum_ite_eq',
    if_congr hmem rfl rfl]
  ring

namespace Simplex

/-- **What the ledger has counted for a strategy, another one has lost.** -/
theorem rowTotal_base (x : Simplex shape) (i : Nat) :
    x.base.rowTotal i = x.reference.rowTotal i := by
  unfold Point.rowTotal base
  simp only [StrategyTable.get_tabulate, Int.cast_sub, mul_sub]
  rw [Finset.sum_add_distrib, Finset.sum_sub_distrib, ← Finset.mul_sum, ← Finset.mul_sum,
    Label.sum_next (fun l => (x.ledger l : Rat)) i]
  ring

/-- The search for a free strategy stays with the player. -/
theorem player_predecessor (h : x.predecessor l = .ok p) : p.player = l.player := by
  unfold predecessor at h
  split at h
  · cases h
    rfl
  · cases h

theorem rowTotal_stepOnto (h : x.stepOnto y l = .ok z) (i : Nat) :
    z.rowTotal i = y.rowTotal i := by
  obtain ⟨p, hp, hz⟩ := exists_of_bind_eq_ok h
  rw [← Except.ok.inj hz]
  exact Point.rowTotal_transfer (player_predecessor hp).symm y x.mesh i

theorem rowTotal_stepsOnto {ls : List (Label shape)} (h : x.stepsOnto y ls = .ok z) (i : Nat) :
    z.rowTotal i = y.rowTotal i := by
  induction ls generalizing y with
  | nil =>
    cases h
    rfl
  | cons l ls ih =>
    rw [stepsOnto, List.foldlM_cons] at h
    obtain ⟨y', hy', hrest⟩ := exists_of_bind_eq_ok h
    rw [ih hrest, rowTotal_stepOnto hy']

/-- **Every vertex of a simplex** has the totals of the reference vertex. -/
theorem rowTotal_vertex {number : Nat} (h : x.vertex number = .ok z) (i : Nat) :
    z.rowTotal i = x.reference.rowTotal i := by
  rw [rowTotal_stepsOnto h, rowTotal_base]

/-! ## §2. Moves -/

/-- The vertex that is looked at has the totals of the reference vertex. -/
structure IsLevel (r : Point shape) (x : Simplex shape) : Prop where
  reference_eq : x.reference = r
  rowTotal_current : ∀ i, x.current.rowTotal i = r.rowTotal i

namespace IsLevel

variable {mv mv' : Move shape} {number : Nat}

theorem start (reference : Point shape) (mesh : Rat) (leashLength : Nat) :
    (Simplex.start reference mesh leashLength).IsLevel reference := ⟨rfl, fun _ => rfl⟩

/-- The vertices of the simplex have these totals, too. -/
theorem vertex (h : x.IsLevel r) (hz : x.vertex number = .ok z) (i : Nat) :
    z.rowTotal i = r.rowTotal i := by
  rw [rowTotal_vertex hz, h.reference_eq]

/-- A label is taken down where the walk stands. -/
theorem receive (h : x.IsLevel r) (hr : x.receive l = .ok (x', mv')) : x'.IsLevel r := by
  unfold Simplex.receive at hr
  dsimp only at hr
  split at hr
  · split at hr
    · split at hr
      · cases hr
        exact ⟨h.reference_eq, h.rowTotal_current⟩
      · cases hr
    · obtain ⟨entry, -, he⟩ := exists_of_bind_eq_ok hr
      cases he
      exact ⟨h.reference_eq, h.rowTotal_current⟩
  · split at hr
    · cases hr
      exact ⟨h.reference_eq, h.rowTotal_current⟩
    · cases hr
      exact ⟨h.reference_eq, h.rowTotal_current⟩

theorem extend (h : x.IsLevel r) (hr : x.extend number l = .ok (x', mv')) : x'.IsLevel r := by
  obtain ⟨y, hy, hr⟩ := exists_of_bind_eq_ok hr
  obtain ⟨z, hz, hr⟩ := exists_of_bind_eq_ok hr
  cases hr
  refine ⟨h.reference_eq, fun i => ?_⟩
  show z.rowTotal i = r.rowTotal i
  rw [rowTotal_stepOnto hz, h.vertex hy]

theorem replaceBase (h : x.IsLevel r) (hr : x.replaceBase l = .ok (x', mv')) : x'.IsLevel r := by
  obtain ⟨source, -, hr⟩ := exists_of_bind_eq_ok hr
  obtain ⟨first, -, hr⟩ := exists_of_bind_eq_ok hr
  obtain ⟨y, hy, hr⟩ := exists_of_bind_eq_ok hr
  have hlevel := h.vertex hy
  dsimp only at hr
  split at hr
  · split at hr
    · -- the walk is finished at the tip
      cases hr
      exact ⟨h.reference_eq, hlevel⟩
    · -- a strategy is saturated, and one step leads on along the boundary
      obtain ⟨z, hz, hr⟩ := exists_of_bind_eq_ok hr
      cases hr
      exact ⟨h.reference_eq, fun i => (rowTotal_stepsOnto hz i).trans (hlevel i)⟩
  · obtain ⟨z, hz, hr⟩ := exists_of_bind_eq_ok hr
    cases hr
    exact ⟨h.reference_eq, fun i => (rowTotal_stepOnto hz i).trans (hlevel i)⟩

theorem replaceInner (h : x.IsLevel r) (hr : x.replaceInner number b l = .ok (x', mv')) :
    x'.IsLevel r := by
  obtain ⟨source, -, hr⟩ := exists_of_bind_eq_ok hr
  obtain ⟨y, hy, hr⟩ := exists_of_bind_eq_ok hr
  have hlevel := h.vertex hy
  dsimp only at hr
  split at hr
  · cases hr
    exact ⟨h.reference_eq, hlevel⟩
  · obtain ⟨z, hz, hr⟩ := exists_of_bind_eq_ok hr
    cases hr
    exact ⟨h.reference_eq, fun i => (rowTotal_stepOnto hz i).trans (hlevel i)⟩

theorem replaceTip (h : x.IsLevel r) (hr : x.replaceTip l = .ok (x', mv')) : x'.IsLevel r := by
  obtain ⟨first, -, hr⟩ := exists_of_bind_eq_ok hr
  obtain ⟨y, hy, hr⟩ := exists_of_bind_eq_ok hr
  have hlevel := h.vertex hy
  dsimp only at hr
  split at hr
  · -- whether the entry is dropped or a strategy released, the walk stands at the base
    split at hr
    · cases hr
      exact ⟨h.reference_eq, hlevel⟩
    · split at hr
      · cases hr
        exact ⟨h.reference_eq, hlevel⟩
      · cases hr
        exact ⟨h.reference_eq, hlevel⟩
  · -- one step against the last entry
    obtain ⟨p, hp, hr⟩ := exists_of_bind_eq_ok hr
    cases hr
    exact ⟨h.reference_eq, fun i =>
      (Point.rowTotal_transfer (player_predecessor hp) y x.mesh i).trans (hlevel i)⟩

theorem replace (h : x.IsLevel r) (hr : x.replace number = .ok (x', mv')) : x'.IsLevel r := by
  unfold Simplex.replace at hr
  split at hr
  · cases hr
  · exact h.replaceBase hr
  · split at hr
    · exact h.replaceInner hr
    · exact h.replaceTip hr

theorem drop (h : x.IsLevel r) (hr : x.drop number = .ok (x', mv')) : x'.IsLevel r := by
  have hlevel : ∀ i, x.base.rowTotal i = r.rowTotal i := fun i => by
    rw [rowTotal_base, h.reference_eq]
  unfold Simplex.drop at hr
  split at hr
  · cases hr
  · split at hr
    · cases hr
    · dsimp only at hr
      split at hr
      · cases hr
      · cases hr
        exact ⟨h.reference_eq, hlevel⟩

theorem release (h : x.IsLevel r) (hr : x.release l = .ok (x', mv')) : x'.IsLevel r := by
  unfold Simplex.release at hr
  split at hr
  · cases hr
  · obtain ⟨first, -, hr⟩ := exists_of_bind_eq_ok hr
    obtain ⟨p, hp, hr⟩ := exists_of_bind_eq_ok hr
    cases hr
    have hstays := Point.rowTotal_transfer (player_predecessor hp) x.current x.mesh
    exact ⟨h.reference_eq, fun i => (hstays i).trans (h.rowTotal_current i)⟩

/-- **Every move** keeps the totals. -/
theorem step (h : x.IsLevel r) (hr : x.step mv = .ok (x', mv')) : x'.IsLevel r := by
  cases mv with
  | evaluate =>
    cases hr
    exact h
  | extend entry l => exact h.extend hr
  | replace vertex => exact h.replace hr
  | drop vertex => exact h.drop hr
  | release l => exact h.release hr
  | finish =>
    cases hr
    exact h

end IsLevel

end Simplex

end SimplicialNash
