/-
  SimplicialNash.Proofs.Circle
  ────────────────────────────
  The circular order of labels, as a relation.

  A player's labels stand on a circle, some of them closed.  `Label.Run` leads
  from a label along closed ones to another label; `Label.IsSource p l` says
  that `p` is the free label from which a grid step onto `l` takes its weight:
  `p` is free, and all labels strictly between `p` and `l` are closed.

  Main statements:
    * `IsSource.unique`, `exists_isSource`: on a circle with a free label every
      label has exactly one source;
    * `Run.unique`, `exists_run`: and every label leads to exactly one free one;
    * `IsSource.telescope`: what a grid step does, summed along the closed run
      in front of its label, is the step itself;
    * `isSource_opened_iff` and its neighbours: how sources change when one
      closed label is opened.
-/
import Mathlib.Logic.Function.Iterate
import Mathlib.Logic.Relation
import Mathlib.Tactic.Common
import SimplicialNash.Walk.Simplex

namespace SimplicialNash

namespace Label

variable {shape : Shape}

/-! ## §1. Going around -/

@[simp] theorem player_next (l : Label shape) : l.next.player = l.player := rfl

theorem strategy_next (l : Label shape) :
    l.next.strategy = (l.strategy + 1) % shape.count l.player := rfl

/-- The label `k` places further. -/
theorem iterate_next (l : Label shape) (k : Nat) :
    (next^[k] l).player = l.player
      ∧ (next^[k] l).strategy = (l.strategy + k) % shape.count l.player := by
  induction k with
  | zero => exact ⟨rfl, by simp [Nat.mod_eq_of_lt l.inRange]⟩
  | succ k ih =>
    obtain ⟨hp, hs⟩ := ih
    rw [Function.iterate_succ_apply', player_next, strategy_next, hp, hs]
    exact ⟨rfl, by rw [Nat.mod_add_mod, Nat.add_assoc]⟩

/-- Going around less than once, one comes from any label of a player to any other. -/
theorem exists_iterate_next {a b : Label shape} (h : b.player = a.player) :
    ∃ k < shape.count a.player, next^[k] a = b := by
  have ha := a.inRange
  have hb := b.inRange
  refine ⟨(b.strategy + (shape.count a.player - a.strategy)) % shape.count a.player,
    Nat.mod_lt _ (by omega), ?_⟩
  obtain ⟨hp, hs⟩ := iterate_next a
    ((b.strategy + (shape.count a.player - a.strategy)) % shape.count a.player)
  refine Label.ext (hp.trans h.symm) ?_
  rw [h] at hb
  have e : a.strategy + (b.strategy + (shape.count a.player - a.strategy))
      = b.strategy + shape.count a.player := by omega
  rw [hs, Nat.add_mod_mod, e, Nat.add_mod_right, Nat.mod_eq_of_lt hb]

theorem next_injective : Function.Injective (next : Label shape → Label shape) := by
  intro a b h
  have hp : a.next.player = b.next.player := by rw [h]
  change a.player = b.player at hp
  refine Label.ext hp ?_
  have hs : a.next.strategy = b.next.strategy := by rw [h]
  rw [strategy_next, strategy_next] at hs
  have ha := a.inRange
  have hb := b.inRange
  rw [hp] at hs ha
  -- the last strategy is the only one that is followed by the first
  have step (s : Nat) (hs : s < shape.count b.player) :
      (s + 1) % shape.count b.player = if s + 1 = shape.count b.player then 0 else s + 1 := by
    split
    · next e => rw [e, Nat.mod_self]
    · exact Nat.mod_eq_of_lt (by omega)
  rw [step _ ha, step _ hb] at hs
  split_ifs at hs <;> omega

/-- **Induction around the circle.**  What passes from every label to the next
holds of all labels of a player as soon as it holds of one. -/
theorem next_induction {P : Label shape → Prop} {l : Label shape} (hl : P l)
    (step : ∀ k, P k → P k.next) {k : Label shape} (hk : k.player = l.player) : P k := by
  obtain ⟨m, -, rfl⟩ := exists_iterate_next hk
  clear hk
  induction m with
  | zero => exact hl
  | succ m ih =>
    rw [Function.iterate_succ_apply']
    exact step _ ih

/-! ## §2. Runs of closed labels -/

/-- From a label one comes to another along closed labels. -/
def Run (closed : Label shape → Bool) : Label shape → Label shape → Prop :=
  Relation.ReflTransGen fun a b => closed a = true ∧ b = a.next

/-- The source of grid steps onto a label: the nearest free label before it. -/
def IsSource (closed : Label shape → Bool) (p l : Label shape) : Prop :=
  closed p = false ∧ Run closed p.next l

section

variable {closed : Label shape → Bool} {a b h k l p q : Label shape}

theorem Run.refl (closed : Label shape → Bool) (a : Label shape) : Run closed a a :=
  Relation.ReflTransGen.refl

theorem Run.trans (hab : Run closed a b) (hbl : Run closed b l) : Run closed a l :=
  Relation.ReflTransGen.trans hab hbl

theorem Run.head (ha : closed a = true) (hb : Run closed a.next b) : Run closed a b :=
  Relation.ReflTransGen.head ⟨ha, rfl⟩ hb

theorem Run.tail (hab : Run closed a b) (hb : closed b = true) : Run closed a b.next :=
  Relation.ReflTransGen.tail hab ⟨hb, rfl⟩

/-- A run is empty, or it begins with a closed label. -/
theorem run_iff : Run closed a b ↔ a = b ∨ (closed a = true ∧ Run closed a.next b) := by
  constructor
  · intro h
    rcases Relation.ReflTransGen.cases_head h with h | ⟨c, ⟨ha, rfl⟩, hc⟩
    · exact Or.inl h
    · exact Or.inr ⟨ha, hc⟩
  · rintro (rfl | ⟨ha, hb⟩)
    · exact Run.refl closed a
    · exact Run.head ha hb

/-- A run is empty, or its last but one label is closed. -/
theorem Run.cases_last (h : Run closed a b) :
    a = b ∨ ∃ c, Run closed a c ∧ closed c = true ∧ b = c.next := by
  rcases Relation.ReflTransGen.cases_tail h with h | ⟨c, hc, hcl, hb⟩
  · exact Or.inl h.symm
  · exact Or.inr ⟨c, hc, hcl, hb⟩

theorem Run.player_eq (h : Run closed a b) : b.player = a.player := by
  induction h with
  | refl => rfl
  | tail _ hb ih => rw [hb.2, player_next, ih]

theorem IsSource.player_eq (hs : IsSource closed p l) : l.player = p.player := by
  rw [hs.2.player_eq, player_next]

/-- **A run ends at the first free label.** -/
theorem Run.unique (hb : Run closed a b) (hl : Run closed a l) (hbf : closed b = false)
    (hlf : closed l = false) : b = l := by
  induction hb using Relation.ReflTransGen.head_induction_on with
  | refl =>
    rcases run_iff.mp hl with h | ⟨hc, -⟩
    · exact h
    · rw [hbf] at hc; cases hc
  | @head x y hxy _ ih =>
    obtain ⟨hx, rfl⟩ := hxy
    rcases run_iff.mp hl with rfl | ⟨-, hy⟩
    · rw [hx] at hlf; cases hlf
    · exact ih hy

/-- **A label has one source only.** -/
theorem IsSource.unique (hp : IsSource closed p l) (hq : IsSource closed q l) : p = q := by
  obtain ⟨hpf, hp⟩ := hp
  obtain ⟨hqf, hq⟩ := hq
  -- induction along the run from `p`, so that the label before `l` is exposed
  generalize hx : p.next = x at hp
  induction hp with
  | refl =>
    rcases hq.cases_last with h | ⟨c, -, hc, h⟩
    · exact next_injective (hx.trans h.symm)
    · rw [next_injective (hx.trans h), hc] at hpf; cases hpf
  | @tail y z _ hyz ih =>
    obtain ⟨hy, rfl⟩ := hyz
    rcases hq.cases_last with h | ⟨c, hqc, -, h⟩
    · rw [next_injective h, hy] at hqf; cases hqf
    · exact ih (next_injective h ▸ hqc)

/-- Two free labels with the same source are equal. -/
theorem IsSource.target_unique (ha : IsSource closed p a) (hb : IsSource closed p b)
    (haf : closed a = false) (hbf : closed b = false) : a = b :=
  ha.2.unique hb.2 haf hbf

/-- On a circle with a free label, every label has a source. -/
theorem exists_isSource (hf : closed h = false) (hl : l.player = h.player) :
    ∃ p, IsSource closed p l := by
  have hn : ∀ k : Label shape, (∃ p, IsSource closed p k) → ∃ p, IsSource closed p k.next := by
    rintro k ⟨p, hp, hr⟩
    cases hk : closed k with
    | false => exact ⟨k, hk, Run.refl _ _⟩
    | true => exact ⟨p, hp, hr.tail hk⟩
  exact next_induction (l := h.next) ⟨h, hf, Run.refl _ _⟩ hn hl

/-- On a circle with a free label, every label leads to a free one. -/
theorem exists_run (hf : closed h = false) (hl : l.player = h.player) :
    ∃ e, Run closed l e ∧ closed e = false := by
  obtain ⟨m, -, hm⟩ := exists_iterate_next hl.symm
  induction m generalizing l with
  | zero => exact ⟨l, Run.refl _ _, by rw [Function.iterate_zero, id] at hm; rw [hm]; exact hf⟩
  | succ m ih =>
    cases hc : closed l with
    | false => exact ⟨l, Run.refl _ _, hc⟩
    | true =>
      obtain ⟨e, he, hef⟩ := ih (l := l.next) hl hm
      exact ⟨e, Run.head hc he, hef⟩

/-- Only on a circle without another free label is a label its own source. -/
theorem IsSource.eq_of_self (hs : IsSource closed l l) (hf : closed h = false)
    (hp : h.player = l.player) : h = l := by
  have hn : ∀ k : Label shape, Run closed k l → Run closed k.next l := by
    intro k hk
    rcases run_iff.mp hk with rfl | ⟨-, hk⟩
    · exact hs.2
    · exact hk
  have hr : Run closed h l :=
    next_induction (P := fun k => Run closed k l) (Run.refl closed l) hn hp
  rcases run_iff.mp hr with e | ⟨hc, -⟩
  · exact e
  · rw [hf] at hc; cases hc

/-- Of two runs to the same label, one is the end of the other. -/
theorem Run.total (ha : Run closed a l) (hb : Run closed b l) :
    Run closed a b ∨ Run closed b a := by
  induction ha using Relation.ReflTransGen.head_induction_on with
  | refl => exact Or.inr hb
  | @head x y hxy _ ih =>
    obtain ⟨hx, rfl⟩ := hxy
    rcases ih with h | h
    · exact Or.inl (Run.head hx h)
    · rcases h.cases_last with rfl | ⟨c, hc, -, e⟩
      · exact Or.inl (Run.head hx (Run.refl _ _))
      · exact Or.inr (next_injective e ▸ hc)

/-- A run to a label begins after the label's source. -/
theorem IsSource.run_of_run (hs : IsSource closed p l) (hk : Run closed k l) :
    Run closed p.next k := by
  induction hk using Relation.ReflTransGen.head_induction_on with
  | refl => exact hs.2
  | @head x y hxy _ ih =>
    obtain ⟨hx, rfl⟩ := hxy
    rcases ih.cases_last with e | ⟨c, hc, -, e⟩
    · have hp := hs.1
      rw [next_injective e, hx] at hp; cases hp
    · rw [next_injective e]; exact hc

end

/-! ## §3. Indicators -/

open Classical in
/-- One at labels that satisfy a condition, and zero elsewhere. -/
noncomputable def one (P : Prop) : Int := if P then 1 else 0

@[simp] theorem one_true : one True = 1 := if_pos trivial

@[simp] theorem one_false : one False = 0 := if_neg id

theorem one_of {P : Prop} (h : P) : one P = 1 := if_pos h

theorem one_of_not {P : Prop} (h : ¬ P) : one P = 0 := if_neg h

theorem one_nonneg (P : Prop) : 0 ≤ one P := by
  unfold one; split <;> decide

theorem one_le (P : Prop) : one P ≤ 1 := by
  unfold one; split <;> decide

/-- **A grid step is the sum of unit moves along the run in front of it.**  The
run to `l` begins after its source `p`; one unit moved onto each of its labels
from the label directly before is one unit moved from `p` to `l`. -/
theorem IsSource.telescope {closed : Label shape → Bool} {p l : Label shape}
    (hs : IsSource closed p l) (hl : closed l = false) (k : Label shape) :
    one (Run closed k l) - one (Run closed k.next l) = one (k = l) - one (k = p) := by
  by_cases hkp : k = p
  · -- at the source: it is open, so a run from it to `l` is empty
    subst hkp
    rw [one_of hs.2]
    by_cases hkl : k = l
    · subst hkl; rw [one_of (Run.refl closed k)]; simp
    · have hr : ¬ Run closed k l := by
        intro h
        rcases run_iff.mp h with e | ⟨hc, -⟩
        · exact hkl e
        · rw [hs.1] at hc; cases hc
      rw [one_of_not hr, one_of_not hkl]; simp
  · by_cases hkl : k = l
    · subst hkl
      have hr : ¬ Run closed k.next k := fun h => hkp (hs.unique ⟨hl, h⟩).symm
      rw [one_of (Run.refl closed k), one_of_not hr, one_of_not hkp]; simp
    · -- elsewhere a run to `l` goes on from one label to the next
      have hiff : Run closed k l ↔ Run closed k.next l := by
        constructor
        · intro h
          exact ((run_iff.mp h).resolve_left hkl).2
        · intro h
          cases hk : closed k with
          | true => exact Run.head hk h
          | false => exact absurd (hs.unique ⟨hk, h⟩).symm hkp
      rw [one_of_not hkp, one_of_not hkl, propext hiff]; simp

/-! ## §4. Opening a closed label -/

/-- The closed labels with one of them opened. -/
abbrev opened (closed : Label shape → Bool) (l : Label shape) : Label shape → Bool :=
  Function.update closed l false

/-- The closed labels with one more of them. -/
abbrev shut (closed : Label shape → Bool) (l : Label shape) : Label shape → Bool :=
  Function.update closed l true

section

variable {closed : Label shape → Bool} {a b h k l p π : Label shape}

theorem opened_self (closed : Label shape → Bool) (l : Label shape) :
    opened closed l l = false := Function.update_self ..

theorem opened_of_ne (closed : Label shape → Bool) (h : k ≠ l) :
    opened closed l k = closed k := Function.update_of_ne h ..

theorem opened_of_free (closed : Label shape → Bool) (h : closed k = false) :
    opened closed l k = false := by
  by_cases e : k = l
  · rw [e, opened_self]
  · rw [opened_of_ne closed e, h]

theorem closed_of_opened (h : opened closed l k = true) : closed k = true := by
  by_cases e : k = l
  · rw [e, opened_self] at h; cases h
  · rwa [opened_of_ne closed e] at h

theorem opened_shut (h : closed l = false) : opened (shut closed l) l = closed := by
  rw [opened, shut, Function.update_idem, ← h, Function.update_eq_self]

theorem shut_opened (h : closed l = true) : shut (opened closed l) l = closed := by
  rw [opened, shut, Function.update_idem, ← h, Function.update_eq_self]

theorem shut_self (closed : Label shape → Bool) (l : Label shape) :
    shut closed l l = true := Function.update_self ..

theorem shut_of_ne (closed : Label shape → Bool) (h : k ≠ l) :
    shut closed l k = closed k := Function.update_of_ne h ..

theorem Run.of_opened (hr : Run (opened closed l) a b) : Run closed a b :=
  Relation.ReflTransGen.mono (fun _ _ h => ⟨closed_of_opened h.1, h.2⟩) _ _ hr

/-- A run either avoids the label that is opened, or passes it. -/
theorem Run.opened_or (hr : Run closed a b) :
    Run (opened closed l) a b ∨ (Run (opened closed l) a l ∧ Run closed l b) := by
  induction hr using Relation.ReflTransGen.head_induction_on with
  | refl => exact Or.inl (Run.refl _ _)
  | @head x y hxy hyb ih =>
    obtain ⟨hx, rfl⟩ := hxy
    by_cases e : x = l
    · subst e; exact Or.inr ⟨Run.refl _ _, Run.head hx hyb⟩
    · have hx' : opened closed l x = true := by rw [opened_of_ne closed e, hx]
      rcases ih with h | ⟨h, hb⟩
      · exact Or.inl (Run.head hx' h)
      · exact Or.inr ⟨Run.head hx' h, hb⟩

/-- The source of a label stays its source when the label itself is opened. -/
theorem IsSource.opened_self (hs : IsSource closed p l) : IsSource (opened closed l) p l := by
  refine ⟨opened_of_free closed hs.1, ?_⟩
  rcases hs.2.opened_or (l := l) with h | ⟨h, -⟩ <;> exact h

/-- The opened label becomes the source of the free label that it leads to. -/
theorem isSource_opened (hl : closed l = true) (hs : IsSource closed p l)
    (hr : Run closed l h) (hf : closed h = false) : IsSource (opened closed l) l h := by
  refine ⟨Label.opened_self closed l, ?_⟩
  have hlh : l ≠ h := fun e => by rw [e, hf] at hl; cases hl
  rcases ((run_iff.mp hr).resolve_left hlh).2.opened_or (l := l) with h' | ⟨h', -⟩
  · exact h'
  · -- otherwise `l` were its own source
    have e := hs.opened_self.unique ⟨Label.opened_self closed l, h'⟩
    rw [← e, hs.1] at hl; cases hl

/-- The label that the opened label leads to had its source in common with it. -/
theorem IsSource.of_run (hs : IsSource closed p l) (hr : Run closed l h) : IsSource closed p h :=
  ⟨hs.1, hs.2.trans hr⟩

/-- All other free labels keep their sources. -/
theorem isSource_opened_iff (hl : closed l = true) (hr : Run closed l h) (hf : closed h = false)
    (hπ : closed π = false) (hπh : π ≠ h) :
    IsSource (opened closed l) k π ↔ IsSource closed k π := by
  constructor
  · rintro ⟨hk, hrun⟩
    by_cases e : k = l
    · subst e
      exact absurd ((Run.head hl hrun.of_opened).unique hr hπ hf) hπh
    · exact ⟨by rwa [opened_of_ne closed e] at hk, hrun.of_opened⟩
  · rintro ⟨hk, hrun⟩
    refine ⟨opened_of_free closed hk, ?_⟩
    rcases hrun.opened_or (l := l) with h' | ⟨-, h'⟩
    · exact h'
    · exact absurd (h'.unique hr hπ hf) hπh

end

end Label

end SimplicialNash
