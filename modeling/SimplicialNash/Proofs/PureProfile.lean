/-
  SimplicialNash.Proofs.PureProfile
  ─────────────────────────────────
  **Expected payoffs, pure profile by pure profile.**

  An expectation is computed player by player, and strategies of weight zero are passed over.
  It is the sum over all pure profiles of the shape (`PureProfile.outcomes`), each with the
  product of the weights of its strategies (`DrawFrom.expectation_eq_sum`).  For a player who
  plays one strategy for certain only the weights of the others count
  (`Game.strategyPayoff_eq_sum`).

  What a player gets is added up in two ways, over the strategies of positive weight for an
  expected payoff and over all of them for a label (`Game.realised`).  Both give the same sum
  (`Game.payoffs_eq_sum`).
-/
import Mathlib.Algebra.BigOperators.Ring.Finset
import SimplicialNash.Proofs.Rescaling

namespace SimplicialNash

open SimplicialNash.Number (total)

/-! ## §1. All pure profiles -/

namespace PureProfile

/-- All pure profiles of a shape. -/
def outcomes (shape : Shape) : Finset (List Nat) := (all shape).toFinset

theorem mem_outcomes {shape : Shape} {s : List Nat} : s ∈ outcomes shape ↔ shape.Admits s := by
  rw [outcomes, List.mem_toFinset, mem_all]

/-- A pure profile names an existing strategy of every player. -/
theorem getD_lt_of_admits {shape : Shape} {s : List Nat} (h : shape.Admits s) {i : Nat}
    (hi : i < shape.length) : s.getD i 0 < shape.count i := by
  induction shape generalizing s i with
  | nil => exact absurd hi (Nat.not_lt_zero i)
  | cons n rest ih =>
    cases s with
    | nil => exact h.elim
    | cons t s =>
      cases i with
      | zero => exact h.1
      | succ i =>
        rw [List.getD_cons_succ, Shape.count_cons_succ]
        exact ih h.2 (Nat.lt_of_succ_lt_succ hi)

/-- A pure profile is a strategy of the first player and a pure profile of the others. -/
theorem sum_outcomes_cons (n : Nat) (rest : Shape) (F : List Nat → Rat) :
    ∑ s ∈ outcomes (n :: rest), F s = ∑ s ∈ Finset.range n, ∑ t ∈ outcomes rest, F (s :: t) := by
  rw [← Finset.sum_product', eq_comm]
  refine Finset.sum_nbij (fun pair => pair.1 :: pair.2) ?_ ?_ ?_ fun _ _ => rfl
  · intro pair hpair
    obtain ⟨hs, ht⟩ := Finset.mem_product.mp hpair
    exact mem_outcomes.mpr ⟨Finset.mem_range.mp hs, mem_outcomes.mp ht⟩
  · intro first _ second _ h
    obtain ⟨hs, ht⟩ := List.cons.inj h
    exact Prod.ext hs ht
  · intro profile hprofile
    have hadmits := mem_outcomes.mp hprofile
    cases profile with
    | nil => exact hadmits.elim
    | cons s t =>
      exact ⟨(s, t), Finset.mem_product.mpr
        ⟨Finset.mem_range.mpr hadmits.1, mem_outcomes.mpr hadmits.2⟩, rfl⟩

end PureProfile

open PureProfile (outcomes)

/-! ## §2. Expectations -/

section

variable {shape : Shape} {lottery : Lottery} {lotteries : List Lottery} {n : Nat}

/-- The weight with which a strategy is drawn. -/
def Lottery.chance (lottery : Lottery) (s : Nat) : Rat :=
  lottery.mean fun t => if t = s then 1 else 0

theorem Lottery.chance_certain (s t : Nat) :
    (certain s).chance t = if s = t then 1 else 0 := mean_certain _ _

/-- A mean over a draw is a sum over all strategies. -/
theorem Lottery.mean_eq_sum (h : ∀ d ∈ lottery, d.1 < n) (F : Nat → Rat) :
    lottery.mean F = ∑ s ∈ Finset.range n, lottery.chance s * F s := by
  induction lottery with
  | nil => simp [chance]
  | cons d lottery ih =>
    have hd : d.1 < n := h d List.mem_cons_self
    have hchance : ∀ s, chance (d :: lottery) s * F s
        = (if d.1 = s then d.2 * F s else 0) + chance lottery s * F s := by
      intro s
      rw [chance, mean_cons, ← chance]
      split <;> ring
    rw [mean_cons, ih fun e he => h e (List.mem_cons_of_mem d he),
      Finset.sum_congr rfl fun s _ => hchance s, Finset.sum_add_distrib, Finset.sum_ite_eq,
      if_pos (Finset.mem_range.mpr hd)]

/-- **An expectation is a sum over all pure profiles**, each with the product of the weights
with which its strategies are drawn. -/
theorem DrawFrom.expectation_eq_sum (h : DrawFrom shape lotteries) (f : List Nat → Rat) :
    expectation lotteries f = ∑ s ∈ outcomes shape,
      (∏ i ∈ Finset.range shape.length, (lotteries.getD i []).chance (s.getD i 0)) * f s := by
  induction h generalizing f with
  | nil => simp [expectation, show outcomes [] = {[]} from rfl]
  | @cons n lottery rest lotteries hd hrest ih =>
    -- the first player's factor stands before the product over the others
    rw [expectation_cons, Lottery.mean_eq_sum hd, PureProfile.sum_outcomes_cons]
    refine Finset.sum_congr rfl fun s _ => ?_
    rw [ih, Finset.mul_sum]
    refine Finset.sum_congr rfl fun t _ => ?_
    rw [List.length_cons, Finset.prod_range_succ']
    simp only [List.getD_cons_succ, List.getD_cons_zero]
    ring

end

/-! ## §3. Payoffs -/

namespace Profile

variable {p : Profile} {i s : Nat}

theorem getD_lotteries (hi : i < p.shape.length) : p.lotteries.getD i [] = p.lottery i := by
  rw [lotteries_eq, List.getD_eq_getElem?_getD, List.getElem?_map, List.getElem?_range hi]
  rfl

/-- A player draws a strategy with its weight. -/
theorem chance_lottery (hs : s < p.shape.count i) : (p.lottery i).chance s = p.weight i s := by
  have hmem : (⟨i, s, hs⟩ : Label p.shape)
      ∈ ({l | l.player = i} : Finset (Label p.shape)) :=
    Finset.mem_filter.mpr ⟨Finset.mem_univ _, rfl⟩
  rw [Lottery.chance, mean_lottery, Finset.sum_eq_single_of_mem _ hmem]
  · rw [if_pos rfl, mul_one, ← weight_eq]
  · intro l hl hne
    have hls : l.strategy ≠ s := fun e => hne (Label.ext (Finset.mem_filter.mp hl).2 e)
    rw [if_neg hls, mul_zero]

/-- The players of a profile draw what a pure profile names with their weights for it. -/
theorem prod_chance (p : Profile) {t : List Nat} (ht : p.shape.Admits t) {players : Finset Nat}
    (hplayers : players ⊆ Finset.range p.shape.length) :
    ∏ j ∈ players, (p.lotteries.getD j []).chance (t.getD j 0)
      = ∏ j ∈ players, p.weight j (t.getD j 0) := by
  refine Finset.prod_congr rfl fun j hj => ?_
  have hlt := Finset.mem_range.mp (hplayers hj)
  rw [getD_lotteries hlt, chance_lottery (PureProfile.getD_lt_of_admits ht hlt)]

end Profile

namespace Game

variable {g : Game} {p : Profile} {i : Nat}

/-- **A player's payoff from a strategy** is the sum over the pure profiles with that strategy,
each with the product of the other players' weights. -/
theorem strategyPayoff_eq_sum (g : Game) (p : Profile) (l : Label p.shape) :
    g.strategyPayoff p l.player l.strategy
      = ∑ s ∈ outcomes p.shape with s[l.player]? = some l.strategy,
          (∏ i ∈ (Finset.range p.shape.length).erase l.player, p.weight i (s.getD i 0))
            * g.payoff l.player s := by
  have hi := l.player_lt
  have hlen : l.player < p.lotteries.length := p.length_lotteries.symm ▸ hi
  have hdraws : DrawFrom p.shape (Profile.draws p.lotteries l.player l.strategy) :=
    p.drawFrom.set fun d hd => List.mem_singleton.mp hd ▸ l.inRange
  rw [strategyPayoff, payoffAgainst, hdraws.expectation_eq_sum, Finset.sum_filter]
  refine Finset.sum_congr rfl fun s hs => ?_
  have hadmits := PureProfile.mem_outcomes.mp hs
  have hnamed : s[l.player]? = some l.strategy ↔ l.strategy = s.getD l.player 0 := by
    rw [List.getD_eq_getElem?_getD, List.getElem?_eq_getElem
      (PureProfile.length_of_admits hadmits ▸ hi), Option.getD_some, Option.some.injEq, eq_comm]
  -- the player's own factor is one or zero, the others draw as in the profile
  have hown : ((Profile.draws p.lotteries l.player l.strategy).getD l.player []).chance
      (s.getD l.player 0) = if l.strategy = s.getD l.player 0 then 1 else 0 := by
    rw [Profile.draws, List.getD_eq_getElem?_getD, List.getElem?_set_self hlen, Option.getD_some,
      Lottery.chance_certain]
  have hothers : ∏ i ∈ (Finset.range p.shape.length).erase l.player,
      ((Profile.draws p.lotteries l.player l.strategy).getD i []).chance (s.getD i 0)
        = ∏ i ∈ (Finset.range p.shape.length).erase l.player, p.weight i (s.getD i 0) := by
    rw [← p.prod_chance hadmits (Finset.erase_subset _ _)]
    refine Finset.prod_congr rfl fun i hmem => ?_
    rw [Profile.draws, List.getD_eq_getElem?_getD,
      List.getElem?_set_ne (Finset.ne_of_mem_erase hmem).symm, ← List.getD_eq_getElem?_getD]
  rw [← Finset.mul_prod_erase _ _ (Finset.mem_range.mpr hi), hown, hothers]
  by_cases h : l.strategy = s.getD l.player 0
  · rw [if_pos h, if_pos (hnamed.mpr h), one_mul]
  · rw [if_neg h, if_neg (mt hnamed.mp h), zero_mul, zero_mul]

/-- **What a player gets** is the sum over all pure profiles, each with the product of all
players' weights. -/
theorem realised_eq_sum (g : Game) (p : Profile) (hi : i < p.shape.length) :
    g.realised p i = ∑ s ∈ outcomes p.shape,
      (∏ j ∈ Finset.range p.shape.length, p.weight j (s.getD j 0)) * g.payoff i s := by
  rw [g.realised_eq p hi, p.drawFrom.expectation_eq_sum]
  refine Finset.sum_congr rfl fun s hs => ?_
  rw [p.prod_chance (PureProfile.mem_outcomes.mp hs) (Finset.Subset.refl _)]

/-- Strategies of weight zero add nothing to what a player gets. -/
theorem expectedPayoff_eq_realised (g : Game) (p : Profile) (hi : i < p.shape.length) :
    g.expectedPayoff p i = g.realised p i := by
  rw [expectedPayoff, Profile.getD_lotteries hi]
  exact p.mean_lottery i (g.strategyPayoff p i)

/-- **Payoffs as sums over all pure profiles.**  This holds of what a strategy pays its player,
of what a player is expected to get, and of what is taken from the payoff of a player's best
reply when a profile is labelled. -/
theorem payoffs_eq_sum (g : Game) (p : Profile) :
    (∀ l : Label p.shape, g.strategyPayoff p l.player l.strategy
        = ∑ s ∈ outcomes p.shape with s[l.player]? = some l.strategy,
            (∏ i ∈ (Finset.range p.shape.length).erase l.player, p.weight i (s.getD i 0))
              * g.payoff l.player s)
      ∧ (∀ i < p.shape.length, g.expectedPayoff p i
        = ∑ s ∈ outcomes p.shape,
            (∏ j ∈ Finset.range p.shape.length, p.weight j (s.getD j 0)) * g.payoff i s)
      ∧ g.bestReplies p = (List.range p.shape.length).filterMap fun i =>
          (firstMax (g.replies p i)).map fun reply => (reply.1, reply.2 - ∑ s ∈ outcomes p.shape,
            (∏ j ∈ Finset.range p.shape.length, p.weight j (s.getD j 0)) * g.payoff i s) := by
  refine ⟨g.strategyPayoff_eq_sum p, fun i hi => ?_, ?_⟩
  · rw [g.expectedPayoff_eq_realised p hi, g.realised_eq_sum p hi]
  · rw [bestReplies_eq]
    refine List.filterMap_congr fun i hmem => ?_
    rw [g.realised_eq_sum p (List.mem_range.mp hmem)]

end Game

end SimplicialNash
