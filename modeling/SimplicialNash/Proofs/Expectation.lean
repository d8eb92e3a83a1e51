/-
  SimplicialNash.Proofs.Expectation
  ─────────────────────────────────
  Expected payoffs are linear in every player's weights.

  An expectation is a mean of means, one for each player (`expectation_cons`), and
  the player whose draw comes first can be any player (`expectation_set`).  So a
  profile pays what its pure replies pay on average (`Game.realised_eq`), and
  weight moved from one strategy to another moves a payoff by that weight times
  the difference of two expectations (`expectation_set_moved`).

  Two expected payoffs of one player differ by no more than two payoffs of that
  player do (`Game.expectation_sub_le_spread`).
-/
import Mathlib.Algebra.BigOperators.Ring.List
import Mathlib.Algebra.Order.Ring.Abs
import Mathlib.Data.List.Forall2
import Mathlib.Order.Bounds.Basic
import Mathlib.Tactic.Linarith
import Mathlib.Tactic.Ring
import SimplicialNash.Game.Classic
import SimplicialNash.Proofs.Deviation

namespace SimplicialNash

open SimplicialNash.Number (total)

/-! ## §1. Means -/

namespace Lottery

variable {lottery : Lottery} {n : Nat} {F F' : Nat → Rat}

/-- The mean of a quantity over a draw. -/
def mean (lottery : Lottery) (F : Nat → Rat) : Rat := total (lottery.map fun d => d.2 * F d.1)

/-- A draw from `n` strategies. -/
structure IsDraw (n : Nat) (lottery : Lottery) : Prop where
  strategy_lt : ∀ d ∈ lottery, d.1 < n
  weight_nonneg : ∀ d ∈ lottery, 0 ≤ d.2
  total_eq : total (lottery.map Prod.snd) = 1

@[simp] theorem mean_nil (F : Nat → Rat) : mean [] F = 0 := rfl

theorem mean_cons (d : Nat × Rat) (lottery : Lottery) (F : Nat → Rat) :
    mean (d :: lottery) F = d.2 * F d.1 + mean lottery F := rfl

@[simp] theorem mean_certain (s : Nat) (F : Nat → Rat) : (certain s).mean F = F s := by
  rw [certain, mean_cons, mean_nil]
  ring

theorem mean_zero (lottery : Lottery) : (lottery.mean fun _ => 0) = 0 := by
  induction lottery with
  | nil => rfl
  | cons d lottery ih => rw [mean_cons, ih]; ring

/-- A mean is linear in the quantity. -/
theorem mean_mul_add (lottery : Lottery) (w : Rat) (F F' : Nat → Rat) :
    (lottery.mean fun s => w * F s + F' s) = w * lottery.mean F + lottery.mean F' := by
  induction lottery with
  | nil => rw [mean_nil, mean_nil, mean_nil]; ring
  | cons d lottery ih => rw [mean_cons, mean_cons, mean_cons, ih]; ring

/-- Of two draws, either may come first. -/
theorem mean_comm (first second : Lottery) (F : Nat → Nat → Rat) :
    (first.mean fun s => second.mean fun t => F s t)
      = second.mean fun t => first.mean fun s => F s t := by
  induction first with
  | nil => exact second.mean_zero.symm
  | cons d first ih => rw [mean_cons, ih, ← mean_mul_add]; rfl

/-- A draw that is made for certain. -/
theorem isDraw_certain {s : Nat} (h : s < n) : (certain s).IsDraw n where
  strategy_lt d hd := by rw [List.mem_singleton.mp hd]; exact h
  weight_nonneg d hd := by rw [List.mem_singleton.mp hd]; exact zero_le_one
  total_eq := add_zero 1

/-- A mean is monotone in the quantity. -/
theorem mean_mono (hlt : ∀ d ∈ lottery, d.1 < n) (hw : ∀ d ∈ lottery, 0 ≤ d.2)
    (hF : ∀ s < n, F s ≤ F' s) : lottery.mean F ≤ lottery.mean F' := by
  induction lottery with
  | nil => exact le_refl _
  | cons d lottery ih =>
    have hd := mul_le_mul_of_nonneg_left (hF _ (hlt d List.mem_cons_self))
      (hw d List.mem_cons_self)
    have hrest := ih (fun e he => hlt e (List.mem_cons_of_mem d he))
      (fun e he => hw e (List.mem_cons_of_mem d he))
    rw [mean_cons, mean_cons]
    exact add_le_add hd hrest

theorem IsDraw.mean_const (h : lottery.IsDraw n) (b : Rat) : (lottery.mean fun _ => b) = b := by
  have hmul : ∀ ds : Lottery, (ds.mean fun _ => b) = total (ds.map Prod.snd) * b := by
    intro ds
    induction ds with
    | nil => rw [mean_nil, List.map_nil, Number.total_nil, zero_mul]
    | cons d ds ih => rw [mean_cons, ih, List.map_cons, Number.total_cons]; ring
  rw [hmul, h.total_eq, one_mul]

end Lottery

/-! ## §2. Expectations -/

section

variable {shape : Shape} {lotteries : List Lottery} {f f' : List Nat → Rat} {i j : Nat}

/-- An expectation is the first player's mean of expectations. -/
theorem expectation_cons (lottery : Lottery) (rest : List Lottery) (f : List Nat → Rat) :
    expectation (lottery :: rest) f
      = lottery.mean fun s => expectation rest fun profile => f (s :: profile) := rfl

/-- **Any player's draw may come first.** -/
theorem expectation_set (hi : i < lotteries.length) (lottery : Lottery) (f : List Nat → Rat) :
    expectation (lotteries.set i lottery) f
      = lottery.mean fun s => expectation (lotteries.set i (.certain s)) f := by
  induction lotteries generalizing i f with
  | nil => exact absurd hi (Nat.not_lt_zero i)
  | cons first rest ih =>
    cases i with
    | zero =>
      simp only [List.set_cons_zero, expectation_cons, Lottery.mean_certain]
    | succ i =>
      -- the first player's draw and the one that is set change places
      simp only [List.set_cons_succ, expectation_cons]
      rw [Lottery.mean_comm]
      congr 1
      funext s
      exact ih (Nat.lt_of_succ_lt_succ hi) _

/-- Draws of every player from the player's strategies. -/
abbrev AreDraws (shape : Shape) (lotteries : List Lottery) : Prop :=
  List.Forall₂ Lottery.IsDraw shape lotteries

/-- One player's draw may be replaced by another one. -/
theorem AreDraws.set (h : AreDraws shape lotteries) {lottery : Lottery}
    (hl : lottery.IsDraw (shape.count i)) : AreDraws shape (lotteries.set i lottery) := by
  induction h generalizing i with
  | nil => exact .nil
  | cons hd hrest ih =>
    cases i with
    | zero => exact .cons hl hrest
    | succ i =>
      rw [Shape.count_cons_succ] at hl
      exact .cons hd (ih hl)

/-- Larger payoffs have a larger expectation. -/
theorem AreDraws.expectation_mono (h : AreDraws shape lotteries)
    (hf : ∀ profile, shape.Admits profile → f profile ≤ f' profile) :
    expectation lotteries f ≤ expectation lotteries f' := by
  induction h generalizing f f' with
  | nil => exact hf [] trivial
  | cons hd hrest ih =>
    rw [expectation_cons, expectation_cons]
    exact Lottery.mean_mono hd.strategy_lt hd.weight_nonneg fun s hs =>
      ih fun profile hp => hf (s :: profile) ⟨hs, hp⟩

theorem AreDraws.expectation_const (h : AreDraws shape lotteries) (b : Rat) :
    (expectation lotteries fun _ => b) = b := by
  induction h with
  | nil => rfl
  | cons hd hrest ih => rw [expectation_cons, ih, hd.mean_const]

/-- **Two expectations** of a quantity differ by no more than two of its values do. -/
theorem AreDraws.expectation_sub_le {lotteries' : List Lottery} (h : AreDraws shape lotteries)
    (h' : AreDraws shape lotteries') {bound : Rat}
    (hf : ∀ s t, shape.Admits s → shape.Admits t → f s - f t ≤ bound) :
    expectation lotteries f - expectation lotteries' f ≤ bound := by
  -- no value is far above the second expectation
  have hvalue : ∀ s, shape.Admits s → f s ≤ bound + expectation lotteries' f := by
    intro s hs
    have hbelow : (expectation lotteries' fun _ => f s - bound) ≤ expectation lotteries' f :=
      h'.expectation_mono fun t ht => by
        have := hf s t hs ht
        linarith
    rw [h'.expectation_const] at hbelow
    linarith
  have habove := h.expectation_mono hvalue
  rw [h.expectation_const] at habove
  linarith

/-- **Weight is moved from one strategy to another.** -/
theorem expectation_set_moved (hi : i < lotteries.length) {lottery moved : Lottery} {w : Rat}
    {s t : Nat} (hmoved : ∀ F, moved.mean F = lottery.mean F + w * (F t - F s))
    (f : List Nat → Rat) :
    expectation (lotteries.set i moved) f = expectation (lotteries.set i lottery) f
      + w * (expectation (lotteries.set i (.certain t)) f
        - expectation (lotteries.set i (.certain s)) f) := by
  rw [expectation_set hi moved, expectation_set hi lottery, hmoved]

end

/-! ## §3. Draws of a profile -/

section

variable {shape : Shape} {i : Nat}

/-- Strategies of weight zero do not count. -/
theorem Lottery.mean_ofRow (row : List Rat) (F : Nat → Rat) :
    (ofRow row).mean F = total (row.zipIdx.map fun d => d.1 * F d.2) := by
  unfold ofRow mean
  rw [List.map_map]
  induction row.zipIdx with
  | nil => rfl
  | cons d ds ih =>
    obtain ⟨w, s⟩ := d
    rw [List.filter_cons, List.map_cons, Number.total_cons, ← ih]
    dsimp only
    by_cases hw : w = 0
    · rw [if_neg (by simpa using hw), hw, zero_mul, zero_add]
    · rw [if_pos (by simpa using hw)]
      rfl

/-- Strategies are numbered as a player's labels are. -/
theorem Label.zipIdx_map_ofPlayer (w : Label shape → Rat) (i : Nat) :
    ((ofPlayer shape i).map w).zipIdx
      = (ofPlayer shape i).map fun l => (w l, l.strategy) := by
  refine List.ext_getElem (by simp) fun s h1 h2 => ?_
  simp [ofPlayer]

namespace Profile

variable {p : Profile}

/-- What a player draws from. -/
def lottery (p : Profile) (i : Nat) : Lottery :=
  .ofRow ((Label.ofPlayer p.shape i).map p.weights.get)

theorem lotteries_eq (p : Profile) :
    p.lotteries = (List.range p.shape.length).map p.lottery := by
  rw [lotteries, rows, StrategyTable.rows_eq, List.map_map]
  rfl

theorem length_lotteries (p : Profile) : p.lotteries.length = p.shape.length := by
  rw [lotteries_eq, List.length_map, List.length_range]

theorem set_lotteries (p : Profile) (i : Nat) :
    p.lotteries.set i (p.lottery i) = p.lotteries := by
  rcases Nat.lt_or_ge i p.lotteries.length with h | h
  · have e : p.lottery i = p.lotteries[i] := by simp [lotteries_eq]
    rw [e, List.set_getElem_self]
  · exact List.set_eq_of_length_le h

/-- Where only one player's weights differ, only that player's draw does. -/
theorem lotteries_eq_set {y y' : StrategyTable shape Rat}
    (h : ∀ l : Label shape, l.player ≠ i → y'.get l = y.get l) :
    lotteries ⟨shape, y'⟩ = (lotteries ⟨shape, y⟩).set i (lottery ⟨shape, y'⟩ i) := by
  refine List.ext_getElem (by rw [List.length_set, length_lotteries, length_lotteries])
    fun j h1 h2 => ?_
  simp only [lotteries_eq, List.getElem_set, List.getElem_map, List.getElem_range]
  split
  · next e => rw [e]
  · next hne =>
    unfold lottery
    congr 1
    refine List.map_congr_left fun l hl => h l ?_
    rw [Label.mem_ofPlayer.mp hl]
    exact Ne.symm hne

/-- **A mean over a player's draw** is a sum over the player's strategies. -/
theorem mean_lottery (p : Profile) (i : Nat) (F : Nat → Rat) :
    (p.lottery i).mean F
      = ∑ l : Label p.shape with l.player = i, p.weights.get l * F l.strategy := by
  rw [lottery, Lottery.mean_ofRow, Label.zipIdx_map_ofPlayer, List.map_map,
    ← Label.total_map_ofPlayer]
  rfl

/-- A player draws strategies with their weights. -/
theorem exists_of_mem_lottery {d : Nat × Rat} (hd : d ∈ p.lottery i) :
    ∃ l : Label p.shape, l.player = i ∧ d = (l.strategy, p.weights.get l) := by
  rw [lottery, Lottery.ofRow, Label.zipIdx_map_ofPlayer] at hd
  obtain ⟨⟨w, s⟩, hws, rfl⟩ := List.mem_map.mp hd
  obtain ⟨l, hl, he⟩ := List.mem_map.mp (List.mem_filter.mp hws).1
  obtain ⟨rfl, rfl⟩ := Prod.mk.inj he
  exact ⟨l, Label.mem_ofPlayer.mp hl, rfl⟩

/-- Every player of a normalized profile draws. -/
theorem IsNormalized.isDraw (h : p.IsNormalized) (hi : i < p.shape.length) :
    (p.lottery i).IsDraw (p.shape.count i) := by
  obtain ⟨hnonneg, hsum⟩ := p.isNormalized_iff.mp h
  refine ⟨fun d hd => ?_, fun d hd => ?_, ?_⟩
  · obtain ⟨l, rfl, rfl⟩ := exists_of_mem_lottery hd
    exact l.inRange
  · obtain ⟨l, -, rfl⟩ := exists_of_mem_lottery hd
    exact hnonneg l
  · have hone := p.mean_lottery i fun _ => 1
    simp only [Lottery.mean, mul_one] at hone
    exact hone.trans (hsum i hi)

theorem IsNormalized.areDraws (h : p.IsNormalized) : AreDraws p.shape p.lotteries := by
  refine List.forall₂_iff_get.mpr ⟨p.length_lotteries.symm, fun i hi _ => ?_⟩
  have hd := h.isDraw hi
  rw [Shape.count_eq_getElem hi] at hd
  simpa [lotteries_eq] using hd

end Profile

/-- **What a player gets** is an expectation, too. -/
theorem Game.realised_eq (g : Game) (p : Profile) (hi : i < p.shape.length) :
    g.realised p i = expectation p.lotteries (g.payoff i) := by
  rw [realised, ← p.set_lotteries i, expectation_set (p.length_lotteries.symm ▸ hi),
    p.mean_lottery]
  rfl

end

/-! ## §4. How far payoffs lie apart -/

namespace Game

variable {g : Game} {lotteries lotteries' : List Lottery} {i : Nat}

/-- The differences between two payoffs of one player. -/
def differences (g : Game) : List Rat :=
  (List.range g.shape.length).flatMap fun i =>
    (PureProfile.all g.shape).flatMap fun s =>
      (PureProfile.all g.shape).map fun t => g.payoff i s - g.payoff i t

/-- The largest difference between two payoffs of one player. -/
def spread (g : Game) : Rat := g.differences.max?.getD 0

theorem mem_differences {d : Rat} :
    d ∈ g.differences ↔ ∃ i < g.shape.length, ∃ s t, g.shape.Admits s ∧ g.shape.Admits t
      ∧ d = g.payoff i s - g.payoff i t := by
  simp only [differences, List.mem_flatMap, List.mem_map, List.mem_range, PureProfile.mem_all]
  constructor
  · rintro ⟨i, hi, s, hs, t, ht, rfl⟩
    exact ⟨i, hi, s, t, hs, ht, rfl⟩
  · rintro ⟨i, hi, s, t, hs, ht, rfl⟩
    exact ⟨i, hi, s, hs, t, ht, rfl⟩

theorem le_spread {d : Rat} (h : d ∈ g.differences) : d ≤ g.spread := by
  obtain ⟨m, hm⟩ := Option.isSome_iff_exists.mp (List.isSome_max?_of_mem h)
  rw [spread, hm]
  exact (List.max?_eq_some_iff.mp hm).2 d h

/-- **The spread is the largest difference**, if there are payoffs at all. -/
theorem isGreatest_spread (hne : g.shape ≠ []) (h0 : 0 ∉ g.shape) :
    IsGreatest {d | ∃ i < g.shape.length, ∃ s t, g.shape.Admits s ∧ g.shape.Admits t
      ∧ d = g.payoff i s - g.payoff i t} g.spread := by
  -- everyone can play the first strategy, so there is a difference
  have hadmits : ∃ s, g.shape.Admits s := by
    generalize g.shape = shape at h0
    induction shape with
    | nil => exact ⟨[], trivial⟩
    | cons n rest ih =>
      rw [List.mem_cons, not_or] at h0
      obtain ⟨s, hs⟩ := ih h0.2
      exact ⟨0 :: s, Nat.pos_of_ne_zero (Ne.symm h0.1), hs⟩
  obtain ⟨s, hs⟩ := hadmits
  have hmem : g.payoff 0 s - g.payoff 0 s ∈ g.differences :=
    mem_differences.mpr ⟨0, List.length_pos_iff.mpr hne, s, s, hs, hs, rfl⟩
  obtain ⟨m, hm⟩ := Option.isSome_iff_exists.mp (List.isSome_max?_of_mem hmem)
  constructor
  · -- it is one of the differences
    have hspread : g.spread ∈ g.differences := by
      rw [spread, hm]
      exact List.max?_mem hm
    exact mem_differences.mp hspread
  · exact fun d hd => le_spread (mem_differences.mpr hd)

example : ClassicGame.matchingPennies.game.toGame.spread = 2 := by decide +kernel

/-- **Two expected payoffs of one player differ by no more than two payoffs do.** -/
theorem expectation_sub_le_spread (h : AreDraws g.shape lotteries)
    (h' : AreDraws g.shape lotteries') (hi : i < g.shape.length) :
    expectation lotteries (g.payoff i) - expectation lotteries' (g.payoff i) ≤ g.spread :=
  h.expectation_sub_le h' fun s t hs ht =>
    le_spread (mem_differences.mpr ⟨i, hi, s, t, hs, ht, rfl⟩)

theorem spread_nonneg (h : AreDraws g.shape lotteries) (hi : i < g.shape.length) :
    0 ≤ g.spread :=
  sub_self (expectation lotteries (g.payoff i)) ▸ expectation_sub_le_spread h h hi

/-- **Moved weight moves an expected payoff by no more than its share of the spread.** -/
theorem abs_expectation_set_moved_le (h : AreDraws g.shape lotteries) (hi : i < g.shape.length)
    {j s t : Nat} {lottery moved : Lottery} {w : Rat} (hw : 0 ≤ w) (hs : s < g.shape.count j)
    (ht : t < g.shape.count j)
    (hmoved : ∀ F, moved.mean F = lottery.mean F + w * (F t - F s)) :
    |expectation (lotteries.set j moved) (g.payoff i)
      - expectation (lotteries.set j lottery) (g.payoff i)| ≤ w * g.spread := by
  have hj : j < lotteries.length := by
    rw [← h.length_eq]
    exact Shape.lt_length_of_count_pos (Nat.lt_of_le_of_lt (Nat.zero_le s) hs)
  have hds := h.set (Lottery.isDraw_certain hs)
  have hdt := h.set (Lottery.isDraw_certain ht)
  have hup := expectation_sub_le_spread hdt hds hi
  have hdown := expectation_sub_le_spread hds hdt hi
  rw [expectation_set_moved hj hmoved, add_sub_cancel_left, abs_mul, abs_of_nonneg hw]
  exact mul_le_mul_of_nonneg_left (abs_le.mpr ⟨by linarith, hup⟩) hw

end Game

end SimplicialNash
