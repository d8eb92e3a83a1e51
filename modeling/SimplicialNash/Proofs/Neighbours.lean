/-
  SimplicialNash.Proofs.Neighbours
  ────────────────────────────────
  **The free places of a circle follow each other in one cycle.**

  Places are compared by the steps that it takes forwards from one to another
  (`stepsTo`), at least one and at most once around; so a place is strictly between
  two others, or between a place and itself (`IsBetween`).  Both searches are told by
  it: the nearest free place before a place is the free one with only closed places
  in between (`freeBefore?_eq_some_iff`), and so is the next free place after it
  (`nextFree?_eq_some_iff`).  On free places the two undo each other.

  Main statement, for every circle with a free place: `freeBefore?_cycle`.  That all
  free places are on one cycle is an induction on the steps from one to the other: the
  next free place is not further (`sameCycle`).
-/
import Mathlib.Data.Fintype.Card
import Mathlib.GroupTheory.Perm.Cycle.Basic
import SimplicialNash.Circle

namespace SimplicialNash.Circle

variable {n k : Nat} {closed : Fin n → Bool} {a b f s x y z : Fin n}

/-! ## §1. Steps from place to place -/

@[simp] theorem ahead_card (s : Fin n) : ahead s n = s := by
  apply Fin.ext
  simp [Nat.mod_eq_of_lt s.isLt]

/-- How many steps lead from a place forwards to another: at least one, and once
around to the place itself. -/
def stepsTo (a b : Fin n) : Nat := if a < b then b.val - a.val else b.val + n - a.val

theorem stepsTo_pos (a b : Fin n) : 0 < stepsTo a b := by
  unfold stepsTo
  split <;> omega

theorem stepsTo_le (a b : Fin n) : stepsTo a b ≤ n := by
  unfold stepsTo
  split <;> omega

@[simp] theorem ahead_stepsTo (a b : Fin n) : ahead a (stepsTo a b) = b := by
  apply Fin.ext
  rw [ahead_val, stepsTo]
  split
  · rw [show a.val + (b.val - a.val) = b.val by omega, Nat.mod_eq_of_lt b.isLt]
  · rw [show a.val + (b.val + n - a.val) = b.val + n by omega, Nat.add_mod_right,
      Nat.mod_eq_of_lt b.isLt]

theorem stepsTo_ahead (a : Fin n) (hpos : 0 < k) (hle : k ≤ n) : stepsTo a (ahead a k) = k := by
  have hval : (ahead a k).val = if a.val + k < n then a.val + k else a.val + k - n := by
    rw [ahead_val]
    split
    · next h => exact Nat.mod_eq_of_lt h
    · rw [Nat.mod_eq_sub_mod (by omega), Nat.mod_eq_of_lt (by omega)]
  unfold stepsTo
  split_ifs at hval ⊢ <;> omega

/-- Going back from `b`, one passes what comes before it on the way from `a`. -/
theorem ahead_sub_stepsTo (a b : Fin n) (hk : k < stepsTo a b) :
    ahead b (n - 1 - k) = ahead a (stepsTo a b - 1 - k) := by
  have hle := stepsTo_le a b
  have hround : ahead b (n - 1 - k) = ahead (ahead a (stepsTo a b)) (n - 1 - k) := by
    rw [ahead_stepsTo]
  rw [hround, ahead_ahead,
    show stepsTo a b + (n - 1 - k) = n + (stepsTo a b - 1 - k) by omega, ← ahead_ahead,
    ahead_card]

/-- `x` comes strictly between `a` and `b`, going forwards from `a`; between a place and
itself come all others. -/
def IsBetween (a x b : Fin n) : Prop := stepsTo a x < stepsTo a b

instance (a x b : Fin n) : Decidable (IsBetween a x b) := inferInstanceAs (Decidable (_ < _))

/-- The places between two places are those that are passed on the way. -/
theorem forall_isBetween_iff {P : Fin n → Prop} :
    (∀ x, IsBetween a x b → P x) ↔ ∀ k, 0 < k → k < stepsTo a b → P (ahead a k) := by
  constructor
  · intro h k hpos hlt
    refine h _ ?_
    have hle := stepsTo_le a b
    rw [IsBetween, stepsTo_ahead a hpos (by omega)]
    exact hlt
  · intro h x hx
    have hpassed := h (stepsTo a x) (stepsTo_pos a x) hx
    rwa [ahead_stepsTo] at hpassed

/-- The way to a place leads through those that come before it. -/
theorem IsBetween.stepsTo_add (h : IsBetween a z b) :
    stepsTo a z + stepsTo z b = stepsTo a b := by
  have hle := stepsTo_le a b
  have hlt : stepsTo a z < stepsTo a b := h
  have hreach : ahead z (stepsTo a b - stepsTo a z) = b := by
    have hround : ahead z (stepsTo a b - stepsTo a z)
        = ahead (ahead a (stepsTo a z)) (stepsTo a b - stepsTo a z) := by rw [ahead_stepsTo]
    rw [hround, ahead_ahead, Nat.add_sub_cancel' (Nat.le_of_lt hlt), ahead_stepsTo]
  have hrest := stepsTo_ahead z (k := stepsTo a b - stepsTo a z) (by omega) (by omega)
  rw [hreach] at hrest
  omega

/-! ## §2. The nearest free places -/

/-- The nearest free place after `s`, in increasing circular order; `s` itself if it
alone is free. -/
def nextFree? (closed : Fin n → Bool) (s : Fin n) : Option (Fin n) :=
  freeFrom? closed (ahead s 1)

/-- **What is found before a place** is free, and all places in between are closed. -/
theorem freeBefore?_eq_some_iff :
    freeBefore? closed s = some b
      ↔ closed b = false ∧ ∀ x, IsBetween b x s → closed x = true := by
  rw [forall_isBetween_iff, freeBefore?, backwards, List.find?_map, Option.map_eq_some_iff]
  simp only [List.find?_range_eq_some, List.mem_range, Function.comp_apply, Bool.not_eq_true',
    Bool.not_not]
  constructor
  · rintro ⟨i, ⟨hfree, hi, hclosed⟩, rfl⟩
    -- the search goes back, betweenness forwards: the `i`-th place back is `i + 1` steps behind
    have hsteps : stepsTo (ahead s (n - 1 - i)) s = i + 1 := by
      have h := stepsTo_ahead (ahead s (n - 1 - i)) (Nat.succ_pos i) hi
      rwa [ahead_ahead, show n - 1 - i + (i + 1) = n by omega, ahead_card] at h
    refine ⟨hfree, fun k hpos hlt => ?_⟩
    have h := hclosed (i - k) (by omega)
    rwa [show n - 1 - (i - k) = n - 1 - i + k by omega, ← ahead_ahead] at h
  · rintro ⟨hfree, hclosed⟩
    have hpos := stepsTo_pos b s
    have hle := stepsTo_le b s
    have hfound := ahead_sub_stepsTo b s (k := stepsTo b s - 1) (by omega)
    rw [Nat.sub_self, ahead_zero] at hfound
    refine ⟨stepsTo b s - 1, ⟨by rw [hfound]; exact hfree, by omega, fun j hj => ?_⟩, hfound⟩
    rw [ahead_sub_stepsTo b s (by omega)]
    exact hclosed _ (by omega) (by omega)

/-- **What is found after a place** is free, and all places in between are closed. -/
theorem nextFree?_eq_some_iff :
    nextFree? closed s = some b
      ↔ closed b = false ∧ ∀ x, IsBetween s x b → closed x = true := by
  rw [forall_isBetween_iff, nextFree?, freeFrom?, forwards, List.find?_map,
    Option.map_eq_some_iff]
  simp only [List.find?_range_eq_some, List.mem_range, Function.comp_apply, Bool.not_eq_true',
    Bool.not_not, ahead_ahead]
  constructor
  · rintro ⟨i, ⟨hfree, hi, hclosed⟩, rfl⟩
    refine ⟨hfree, fun k hpos hlt => ?_⟩
    rw [stepsTo_ahead s (by omega) (by omega)] at hlt
    have h := hclosed (k - 1) (by omega)
    rwa [show 1 + (k - 1) = k by omega] at h
  · rintro ⟨hfree, hclosed⟩
    have hpos := stepsTo_pos s b
    have hle := stepsTo_le s b
    have hfound : ahead s (1 + (stepsTo s b - 1)) = b := by
      rw [show 1 + (stepsTo s b - 1) = stepsTo s b by omega, ahead_stepsTo]
    exact ⟨stepsTo s b - 1, ⟨by rw [hfound]; exact hfree, by omega,
      fun j hj => hclosed _ (by omega) (by omega)⟩, hfound⟩

theorem exists_freeBefore?_eq_some (hf : closed f = false) (s : Fin n) :
    ∃ b, freeBefore? closed s = some b := by
  have hpos := stepsTo_pos f s
  have hle := stepsTo_le f s
  have hreach := ahead_sub_stepsTo f s (k := stepsTo f s - 1) (by omega)
  rw [Nat.sub_self, ahead_zero] at hreach
  rw [← Option.isSome_iff_exists, freeBefore?, List.find?_isSome]
  exact ⟨f, List.mem_map.mpr ⟨stepsTo f s - 1, List.mem_range.mpr (by omega), hreach⟩,
    by rw [hf]; rfl⟩

theorem exists_nextFree?_eq_some (hf : closed f = false) (s : Fin n) :
    ∃ b, nextFree? closed s = some b := by
  have hpos := stepsTo_pos s f
  have hle := stepsTo_le s f
  have hreach : ahead (ahead s 1) (stepsTo s f - 1) = f := by
    rw [ahead_ahead, Nat.add_sub_cancel' hpos, ahead_stepsTo]
  rw [← Option.isSome_iff_exists, nextFree?, freeFrom?, List.find?_isSome]
  exact ⟨f, List.mem_map.mpr ⟨stepsTo s f - 1, List.mem_range.mpr (by omega), hreach⟩,
    by rw [hf]; rfl⟩

/-! ## §3. The cycle of free places -/

/-- The free places. -/
abbrev Free (closed : Fin n → Bool) : Type := {s : Fin n // closed s = false}

/-- **Going back and going on undo each other** on free places. -/
theorem freeBefore?_eq_some_iff_nextFree? (hs : closed s = false) (hb : closed b = false) :
    freeBefore? closed s = some b ↔ nextFree? closed b = some s := by
  rw [freeBefore?_eq_some_iff, nextFree?_eq_some_iff, and_iff_right hs, and_iff_right hb]

/-- The step back to the nearest free place permutes the free places. -/
theorem exists_perm (hf : closed f = false) :
    ∃ back : Equiv.Perm (Free closed), ∀ s : Free closed,
      freeBefore? closed s = some ↑(back s) ∧ nextFree? closed s = some ↑(back.symm s) := by
  have hback : ∀ s : Free closed, ∃ b : Free closed, freeBefore? closed s = some ↑b := by
    intro s
    obtain ⟨b, hb⟩ := exists_freeBefore?_eq_some hf s
    exact ⟨⟨b, closed_freeBefore? hb⟩, hb⟩
  have hnext : ∀ s : Free closed, ∃ b : Free closed, nextFree? closed s = some ↑b := by
    intro s
    obtain ⟨b, hb⟩ := exists_nextFree?_eq_some hf s
    exact ⟨⟨b, closed_freeFrom? hb⟩, hb⟩
  choose back hback using hback
  choose next hnext using hnext
  refine ⟨⟨back, next, fun s => ?_, fun s => ?_⟩, fun s => ⟨hback s, hnext s⟩⟩
  · have h := (freeBefore?_eq_some_iff_nextFree? s.2 (back s).2).mp (hback s)
    exact Subtype.ext (Option.some.inj ((hnext (back s)).symm.trans h))
  · have h := (freeBefore?_eq_some_iff_nextFree? (next s).2 s.2).mpr (hnext s)
    exact Subtype.ext (Option.some.inj ((hback (next s)).symm.trans h))

section

variable {back : Equiv.Perm (Free closed)}

/-- **All free places are on one cycle.** -/
theorem sameCycle (hnext : ∀ s : Free closed, nextFree? closed s = some ↑(back.symm s))
    (x y : Free closed) : back.SameCycle x y := by
  -- by the steps from `x` to `y`, which the next free place after `x` lessens
  induction hk : stepsTo x.val y.val using Nat.strong_induction_on generalizing x with
  | _ k ih =>
    have hstep : back.SameCycle x (back.symm x) :=
      (Equiv.Perm.SameCycle.refl back x).symm_apply_right
    obtain ⟨-, hclosed⟩ := nextFree?_eq_some_iff.mp (hnext x)
    rcases Nat.lt_trichotomy (stepsTo x.val (back.symm x).val) (stepsTo x.val y.val)
      with hlt | heq | hgt
    · have hadd := IsBetween.stepsTo_add (show IsBetween x.val (back.symm x).val y.val from hlt)
      have hpos := stepsTo_pos x.val (back.symm x).val
      exact hstep.trans (ih _ (by omega) (back.symm x) rfl)
    · have e : back.symm x = y := Subtype.ext (by
        rw [← ahead_stepsTo x.val (back.symm x).val, heq, ahead_stepsTo])
      exact e ▸ hstep
    · -- `y` is free, so the next free place cannot be behind it
      have hy := hclosed y.val hgt
      rw [y.2] at hy
      cases hy

/-- **Step by step back, every free place is visited once**, and then the walk is where it
began. -/
theorem iterate_visits (hcycle : ∀ x y, back.SameCycle x y) (x : Free closed) :
    (∀ y, ∃! k, k < Fintype.card (Free closed) ∧ back^[k] x = y)
      ∧ back^[Fintype.card (Free closed)] x = x := by
  have hon : back.IsCycleOn ((Finset.univ : Finset (Free closed)) : Set (Free closed)) := by
    refine ⟨?_, fun x _ y _ => hcycle x y⟩
    rw [Finset.coe_univ]
    exact Set.bijOn_univ.mpr back.bijective
  have hx : x ∈ (Finset.univ : Finset (Free closed)) := Finset.mem_univ x
  simp only [Equiv.Perm.iterate_eq_pow]
  constructor
  · intro y
    -- on one cycle, equal powers have equal exponents up to the length of the cycle
    obtain ⟨k, hk, rfl⟩ := hon.exists_pow_eq hx (Finset.mem_univ y)
    refine ⟨k, ⟨hk, rfl⟩, ?_⟩
    rintro j ⟨hj, he⟩
    exact ((hon.pow_apply_eq_pow_apply hx).mp he).eq_of_lt_of_lt hj hk
  · exact hon.pow_card_apply hx

end

/-! ## §4. Places by number -/

/-- Places may be counted by another name of their number. -/
theorem freeBefore?_cast {m : Nat} (e : m = n) (s : Fin m) :
    (freeBefore? (fun i => closed (Fin.cast e i)) s).map (Fin.cast e)
      = freeBefore? closed (Fin.cast e s) := by
  subst e
  simp

/-- Among flags in a list the same places are found. -/
theorem neighbours_ofFn (hb : freeBefore? closed s = some b) :
    neighbours (List.ofFn closed) s = .ok (b.val, (b.val + 1) % n) := by
  have hn : (List.ofFn closed).length = n := List.length_ofFn
  have hs := s.isLt
  have hplace : (⟨s.val % (List.ofFn closed).length, Nat.mod_lt _ (by omega)⟩
      : Fin (List.ofFn closed).length) = Fin.cast hn.symm s := by
    apply Fin.ext
    show s.val % (List.ofFn closed).length = s.val
    rw [hn, Nat.mod_eq_of_lt hs]
  have hflags : (fun i : Fin (List.ofFn closed).length => (List.ofFn closed)[i])
      = fun i => closed (Fin.cast hn i) := by
    funext i
    rw [Fin.getElem_fin, List.getElem_ofFn]
    rfl
  have hfound : (freeBefore? (fun i => closed (Fin.cast hn i)) (Fin.cast hn.symm s)).map
      (Fin.cast hn) = some b := (freeBefore?_cast hn _).trans hb
  rw [Option.map_eq_some_iff] at hfound
  obtain ⟨c, hc, rfl⟩ := hfound
  rw [neighbours, dif_pos (by omega)]
  simp only [hplace, hflags, hc]
  simp [hn]

/-- **The free places of a circle are one cycle.**  If any place is free, there is a nearest
free place before every place, with only closed places in between; the place after it is found
too, also among flags in a list.  From free place to free place the step back is a bijection,
whose inverse is the step to the next free place; repeated from any of them, it visits each
exactly once before it returns. -/
theorem freeBefore?_cycle (closed : Fin n → Bool) (hfree : ∃ f, closed f = false) :
    (∀ s, ∃ b, freeBefore? closed s = some b
      ∧ closed b = false
      ∧ (∀ x, IsBetween b x s → closed x = true)
      ∧ afterFreeBefore? closed s = some (ahead b 1)
      ∧ neighbours (List.ofFn closed) s = .ok (b.val, (b.val + 1) % n))
    ∧ ∃ back : Equiv.Perm (Free closed),
      (∀ s : Free closed, freeBefore? closed s = some ↑(back s)
        ∧ nextFree? closed s = some ↑(back.symm s))
      ∧ ∀ s, (∀ t, ∃! k, k < Fintype.card (Free closed) ∧ back^[k] s = t)
        ∧ back^[Fintype.card (Free closed)] s = s := by
  obtain ⟨f, hf⟩ := hfree
  constructor
  · intro s
    obtain ⟨b, hb⟩ := exists_freeBefore?_eq_some hf s
    obtain ⟨hbf, hclosed⟩ := freeBefore?_eq_some_iff.mp hb
    refine ⟨b, hb, hbf, hclosed, ?_, neighbours_ofFn hb⟩
    rw [afterFreeBefore?, hb, Option.map_some]
  · obtain ⟨back, hback⟩ := exists_perm hf
    exact ⟨back, hback, iterate_visits (sameCycle fun s => (hback s).2)⟩

/-- Of five places, only the second and the last are free. -/
def secondAndLast (s : Fin 5) : Bool := s ≠ 1 && s ≠ 4

theorem freeBefore?_cycle_secondAndLast :
    (∃ f, secondAndLast f = false)
      ∧ (freeBefore? secondAndLast 1 = some 4
        ∧ (∀ x, IsBetween 4 x 1 → secondAndLast x = true)
        ∧ neighbours [true, false, true, true, false] 1 = .ok (4, 0))
      ∧ ∃ back : Equiv.Perm (Free secondAndLast), back ⟨1, rfl⟩ = ⟨4, rfl⟩
        ∧ (∀ t, ∃! k, k < 2 ∧ back^[k] ⟨1, rfl⟩ = t) ∧ back^[2] ⟨1, rfl⟩ = ⟨1, rfl⟩ := by
  have hfree : ∃ f, secondAndLast f = false := ⟨1, rfl⟩
  have hfound : freeBefore? secondAndLast 1 = some 4 := by decide
  obtain ⟨hbefore, back, hback, hvisits⟩ := freeBefore?_cycle secondAndLast hfree
  obtain ⟨b, hb, -, hclosed, -, hneighbours⟩ := hbefore 1
  obtain rfl : b = 4 := Option.some.inj (hb.symm.trans hfound)
  have hstep : back ⟨1, rfl⟩ = ⟨4, rfl⟩ :=
    Subtype.ext (Option.some.inj ((hback ⟨1, rfl⟩).1.symm.trans hfound))
  exact ⟨hfree, ⟨hb, hclosed, hneighbours⟩, back, hstep, hvisits ⟨1, rfl⟩⟩

end SimplicialNash.Circle
