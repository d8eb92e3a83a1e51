/-
  SimplicialNash.Proofs.Incumbent
  ───────────────────────────────
  **The incumbent is the earliest of the best profiles seen.**

  `Game.IsFirstLeast` says which profile of a list is meant: of those with the
  smallest excess the first.  One more profile at the end of the list takes its place
  if the excess is smaller, and leaves it there if not (`concat_of_lt`,
  `concat_of_le`).  This is what becomes of the incumbent when a profile is labelled
  (`Incumbent.isFirstLeast_label`), and so it goes on from profile to profile
  (`Incumbent.isFirstLeast_labelAll`).
-/
import SimplicialNash.Proofs.Deviation

namespace SimplicialNash

/-! ## §1. The earliest profile of the smallest excess -/

namespace Game

/-- What the most profitable deviation from a profile gains. -/
def excess (g : Game) (p : Profile) : Except Fault Rat := do
  return (← g.bestDeviation p).excess

/-- Of the profiles in a list that have the smallest excess, `p` is the first, and
its excess is `regret`. -/
def IsFirstLeast (g : Game) (seen : List Profile) (p : Profile) (regret : Rat) : Prop :=
  ∃ earlier later, seen = earlier ++ p :: later ∧ g.excess p = .ok regret
    ∧ (∀ q ∈ earlier, ∃ e, g.excess q = .ok e ∧ regret < e)
    ∧ ∀ q ∈ later, ∃ e, g.excess q = .ok e ∧ regret ≤ e

variable {g : Game} {p q : Profile} {seen more : List Profile} {regret regret' e : Rat}

theorem excess_eq_ok {d : Deviation p.shape} (h : g.bestDeviation p = .ok d) :
    g.excess p = .ok d.excess := by
  rw [excess, h, ok_bind]
  rfl

theorem exists_of_excess_eq_ok (h : g.excess p = .ok e) :
    ∃ d, g.bestDeviation p = .ok d ∧ d.excess = e := by
  obtain ⟨d, hd, he⟩ := exists_of_bind_eq_ok h
  exact ⟨d, hd, Except.ok.inj he⟩

namespace IsFirstLeast

theorem singleton (h : g.excess p = .ok regret) : g.IsFirstLeast [p] p regret :=
  ⟨[], [], rfl, h, fun _ hq => absurd hq List.not_mem_nil,
    fun _ hq => absurd hq List.not_mem_nil⟩

theorem excess_eq (h : g.IsFirstLeast seen p regret) : g.excess p = .ok regret := by
  obtain ⟨_, _, _, hp, _⟩ := h
  exact hp

/-- No profile in the list has a smaller excess. -/
theorem le (h : g.IsFirstLeast seen p regret) (hq : q ∈ seen) (he : g.excess q = .ok e) :
    regret ≤ e := by
  obtain ⟨earlier, later, rfl, hp, hearlier, hlater⟩ := h
  rcases List.mem_append.mp hq with hq | hq
  · obtain ⟨e', he', hlt⟩ := hearlier q hq
    obtain rfl : e' = e := Except.ok.inj (he'.symm.trans he)
    exact hlt.le
  rcases List.mem_cons.mp hq with rfl | hq
  · exact (Except.ok.inj (hp.symm.trans he)).le
  · obtain ⟨e', he', hle⟩ := hlater q hq
    obtain rfl : e' = e := Except.ok.inj (he'.symm.trans he)
    exact hle

/-- **A smaller excess** takes the place. -/
theorem concat_of_lt (h : g.IsFirstLeast seen p regret) (he : g.excess q = .ok e)
    (hlt : e < regret) : g.IsFirstLeast (seen ++ [q]) q e := by
  obtain ⟨earlier, later, rfl, hp, hearlier, hlater⟩ := h
  refine ⟨earlier ++ p :: later, [], rfl, he, ?_, fun _ hr => absurd hr List.not_mem_nil⟩
  intro r hr
  rcases List.mem_append.mp hr with hr | hr
  · obtain ⟨e', he', hlt'⟩ := hearlier r hr
    exact ⟨e', he', hlt.trans hlt'⟩
  rcases List.mem_cons.mp hr with rfl | hr
  · exact ⟨regret, hp, hlt⟩
  · obtain ⟨e', he', hle⟩ := hlater r hr
    exact ⟨e', he', hlt.trans_le hle⟩

/-- **An excess that is not smaller** changes nothing. -/
theorem concat_of_le (h : g.IsFirstLeast seen p regret) (he : g.excess q = .ok e)
    (hle : regret ≤ e) : g.IsFirstLeast (seen ++ [q]) p regret := by
  obtain ⟨earlier, later, rfl, hp, hearlier, hlater⟩ := h
  refine ⟨earlier, later ++ [q], by simp, hp, hearlier, ?_⟩
  intro r hr
  rcases List.mem_append.mp hr with hr | hr
  · exact hlater r hr
  · rw [List.mem_singleton.mp hr]
    exact ⟨e, he, hle⟩

/-- The smallest excess of a longer list is not larger. -/
theorem le_of_append (h : g.IsFirstLeast seen p regret)
    (h' : g.IsFirstLeast (seen ++ more) q regret') : regret' ≤ regret := by
  refine h'.le ?_ h.excess_eq
  obtain ⟨earlier, later, rfl, -⟩ := h
  simp

/-- If no excess is smaller than that of the head, it is the head. -/
theorem eq_head (h : g.IsFirstLeast (q :: seen) p regret) (he : g.excess q = .ok e)
    (hle : ∀ r ∈ seen, ∀ e', g.excess r = .ok e' → e ≤ e') : p = q ∧ regret = e := by
  obtain ⟨earlier, later, hsplit, hp, hearlier, hlater⟩ := h
  cases earlier with
  | nil =>
    obtain ⟨rfl, -⟩ := List.cons.inj hsplit
    exact ⟨rfl, Except.ok.inj (hp.symm.trans he)⟩
  | cons first earlier =>
    -- the head would have a larger excess than a later profile
    obtain ⟨rfl, rfl⟩ := List.cons.inj hsplit
    obtain ⟨e', he', hlt⟩ := hearlier q List.mem_cons_self
    obtain rfl : e' = e := Except.ok.inj (he'.symm.trans he)
    exact absurd (hle p (by simp) regret hp) (not_le.mpr hlt)

end IsFirstLeast

end Game

/-! ## §2. Labelling -/

namespace Incumbent

variable {g : Game} {inc next : Incumbent} {p : Profile} {seen ps : List Profile}

/-- Profiles are labelled one after another. -/
def labelAll (g : Game) : Incumbent → List Profile → Except Fault Incumbent
  | inc, [] => .ok inc
  | inc, p :: ps => do labelAll g (← inc.label g p).2 ps

theorem labelAll_cons {d : Deviation p.shape} {mid : Incumbent} (h : inc.label g p = .ok (d, mid))
    (ps : List Profile) : inc.labelAll g (p :: ps) = mid.labelAll g ps := by
  rw [labelAll, h, ok_bind]

/-- The incumbent takes in what is labelled. -/
theorem exists_of_label_eq_ok {d : Deviation p.shape} (h : inc.label g p = .ok (d, next)) :
    g.bestDeviation p = .ok d ∧ next = inc.observe p d.excess := by
  obtain ⟨d', hd, he⟩ := exists_of_bind_eq_ok h
  obtain ⟨rfl, rfl⟩ := Prod.mk.inj (Except.ok.inj he)
  exact ⟨hd, rfl⟩

/-- The incumbent before any profile is labelled. -/
theorem exists_of_ofStart_eq_ok {start : Profile} (h : ofStart g start = .ok inc) :
    g.excess start = .ok inc.regret ∧ inc.profile = start := by
  obtain ⟨d, hd, he⟩ := exists_of_bind_eq_ok h
  obtain rfl := Except.ok.inj he
  exact ⟨Game.excess_eq_ok hd, rfl⟩

/-- **One profile is labelled.** -/
theorem isFirstLeast_label (hinc : g.IsFirstLeast seen inc.profile inc.regret)
    {d : Deviation p.shape} (h : inc.label g p = .ok (d, next)) :
    g.IsFirstLeast (seen ++ [p]) next.profile next.regret := by
  obtain ⟨hd, rfl⟩ := exists_of_label_eq_ok h
  unfold observe
  split
  · next hlt => exact hinc.concat_of_lt (Game.excess_eq_ok hd) hlt
  · next hlt => exact hinc.concat_of_le (Game.excess_eq_ok hd) (not_lt.mp hlt)

/-- **One profile after another is labelled.** -/
theorem isFirstLeast_labelAll (hinc : g.IsFirstLeast seen inc.profile inc.regret)
    (h : inc.labelAll g ps = .ok next) :
    g.IsFirstLeast (seen ++ ps) next.profile next.regret := by
  induction ps generalizing seen inc with
  | nil =>
    cases h
    rwa [List.append_nil]
  | cons p ps ih =>
    obtain ⟨⟨d, mid⟩, hlabel, hrest⟩ := exists_of_bind_eq_ok h
    have hmid := isFirstLeast_label hinc hlabel
    rw [← List.singleton_append, ← List.append_assoc]
    exact ih hmid hrest

/-- All that is labelled is counted. -/
theorem evaluations_labelAll (h : inc.labelAll g ps = .ok next) :
    next.evaluations = inc.evaluations + ps.length := by
  induction ps generalizing inc with
  | nil =>
    cases h
    rfl
  | cons p ps ih =>
    obtain ⟨⟨d, mid⟩, hlabel, hrest⟩ := exists_of_bind_eq_ok h
    obtain ⟨-, rfl⟩ := exists_of_label_eq_ok hlabel
    have hmid : (inc.observe p d.excess).evaluations = inc.evaluations + 1 := by
      unfold observe
      split <;> rfl
    rw [ih hrest, hmid, List.length_cons, Nat.add_assoc, Nat.add_comm 1]

/-- The incumbent is an old one or has just been labelled. -/
theorem profile_labelAll (h : inc.labelAll g ps = .ok next) :
    next.profile = inc.profile ∨ next.profile ∈ ps := by
  induction ps generalizing inc with
  | nil =>
    cases h
    exact Or.inl rfl
  | cons p ps ih =>
    obtain ⟨⟨d, mid⟩, hlabel, hrest⟩ := exists_of_bind_eq_ok h
    obtain ⟨-, rfl⟩ := exists_of_label_eq_ok hlabel
    rcases ih hrest with hprofile | hmem
    · unfold observe at hprofile
      split at hprofile
      · exact Or.inr (hprofile ▸ List.mem_cons_self)
      · exact Or.inl hprofile
    · exact Or.inr (List.mem_cons_of_mem p hmem)

end Incumbent

end SimplicialNash
