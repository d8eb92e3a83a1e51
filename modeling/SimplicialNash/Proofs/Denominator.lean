/-
  SimplicialNash.Proofs.Denominator
  ─────────────────────────────────
  Common denominators of the weights of a profile.

  A number makes all weights integers exactly if `Profile.denominatorLcm` divides it
  (`Profile.denominatorLcm_dvd_iff`, `Number.exists_intCast_eq_mul_iff`), so this is the
  least one that does (`Profile.isLeast_denominatorLcm`), and the profile is on the grid
  of one over it (`Profile.isOnGrid_denominatorLcm`).  What is on a grid is on every
  finer one (`Profile.IsOnGrid.refine`).
-/
import Mathlib.Data.Rat.Lemmas
import Mathlib.Order.Bounds.Basic
import Mathlib.Tactic.FieldSimp
import SimplicialNash.Proofs.Walk.Grid

namespace SimplicialNash

/-- A multiple of a rational number is an integer if the denominator divides the factor. -/
theorem Number.exists_intCast_eq_mul_iff {k : Nat} (hk : 0 < k) (w : Rat) :
    (∃ z : Int, (k : Rat) * w = z) ↔ w.den ∣ k := by
  constructor
  · rintro ⟨z, hz⟩
    have hw : w = Rat.divInt z k := by
      rw [Rat.divInt_eq_div, ← hz, Int.cast_natCast]
      field_simp
    have hdvd := Rat.den_dvd z k
    rw [← hw] at hdvd
    exact Int.natCast_dvd_natCast.mp hdvd
  · rintro ⟨c, rfl⟩
    refine ⟨c * w.num, ?_⟩
    push_cast
    rw [mul_comm (w.den : Rat), mul_assoc, mul_comm (w.den : Rat), Rat.mul_den_eq_num]

namespace Profile

variable {p : Profile} {mesh : Rat}

/-- **The common denominator divides** exactly what all denominators divide. -/
theorem denominatorLcm_dvd_iff (p : Profile) (k : Nat) :
    p.denominatorLcm ∣ k ↔ ∀ w ∈ p.values, w.den ∣ k := by
  have hfold : ∀ (ws : List Rat) (n : Nat),
      ws.foldl (fun lcm w => lcm.lcm w.den) n ∣ k ↔ n ∣ k ∧ ∀ w ∈ ws, w.den ∣ k := by
    intro ws
    induction ws with
    | nil => intro n; simp
    | cons w ws ih =>
      intro n
      rw [List.foldl_cons, ih, Nat.lcm_dvd_iff, List.forall_mem_cons, and_assoc]
  rw [denominatorLcm, hfold]
  exact and_iff_right (one_dvd k)

theorem denominatorLcm_pos (p : Profile) : 0 < p.denominatorLcm := by
  -- it divides the product of all denominators
  have hprod : p.denominatorLcm ∣ (p.values.map Rat.den).prod :=
    (p.denominatorLcm_dvd_iff _).mpr fun w hw => List.dvd_prod (List.mem_map_of_mem hw)
  refine Nat.pos_of_dvd_of_pos hprod (Nat.pos_of_ne_zero fun hzero => ?_)
  obtain ⟨w, -, hw⟩ := List.mem_map.mp (List.prod_eq_zero_iff.mp hzero)
  exact w.den_nz hw

/-- **The common denominator is the least number that makes all weights integers.** -/
theorem isLeast_denominatorLcm (p : Profile) :
    IsLeast {k : Nat | 0 < k ∧ ∀ w ∈ p.values, ∃ z : Int, (k : Rat) * w = z}
      p.denominatorLcm := by
  constructor
  · refine ⟨p.denominatorLcm_pos, fun w hw => ?_⟩
    exact (Number.exists_intCast_eq_mul_iff p.denominatorLcm_pos w).mpr
      ((p.denominatorLcm_dvd_iff _).mp (dvd_refl _) w hw)
  · rintro k ⟨hk, hints⟩
    refine Nat.le_of_dvd hk ((p.denominatorLcm_dvd_iff k).mpr fun w hw => ?_)
    exact (Number.exists_intCast_eq_mul_iff hk w).mp (hints w hw)

theorem isOnGrid_denominatorLcm (p : Profile) : p.IsOnGrid (1 / p.denominatorLcm) := by
  intro w hw
  obtain ⟨hpos, hints⟩ := p.isLeast_denominatorLcm.1
  obtain ⟨z, hz⟩ := hints w hw
  have hne : (p.denominatorLcm : Rat) ≠ 0 := Nat.cast_ne_zero.mpr hpos.ne'
  exact ⟨z, by rw [← hz, mul_one_div, mul_div_cancel_left₀ w hne]⟩

/-- A profile on a grid is on every finer one. -/
theorem IsOnGrid.refine {n : Nat} (h : p.IsOnGrid (n * mesh)) : p.IsOnGrid mesh := by
  intro w hw
  obtain ⟨z, rfl⟩ := h w hw
  exact ⟨z * n, by push_cast; ring⟩

end Profile

end SimplicialNash
