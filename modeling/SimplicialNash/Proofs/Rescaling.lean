/-
  SimplicialNash.Proofs.Rescaling
  ───────────────────────────────
  **Rescaled payoffs change no label.**

  A game is a rescaling of another one if all its payoffs are multiplied by one positive
  number, and every player is given an amount that depends on what the others play
  (`Game.IsRescaled`).  Nobody's choice is affected: against given draws of the others, a
  player's payoffs from all strategies are moved by one and the same amount
  (`Game.IsRescaled.strategyPayoff_eq`), and so is what the player gets, because the
  player's weights add up to one.  So the labels of a profile are the same in both games,
  ties included, and the excess is multiplied (`Game.IsRescaled.bestDeviation_eq`).

  Only the totals of the weights matter, not their signs (`Profile.IsBalanced`).
-/
import SimplicialNash.Proofs.Expectation

namespace SimplicialNash

open SimplicialNash.Number (total)

/-! ## §1. Expectations of rescaled quantities -/

section

variable {shape : Shape} {lotteries : List Lottery} {f f' : List Nat → Rat} {i : Nat}

theorem expectation_mul_add (lotteries : List Lottery) (a : Rat) (f f' : List Nat → Rat) :
    (expectation lotteries fun s => a * f s + f' s)
      = a * expectation lotteries f + expectation lotteries f' := by
  induction lotteries generalizing f f' with
  | nil => rfl
  | cons lottery rest ih =>
    rw [expectation_cons, expectation_cons, expectation_cons, ← Lottery.mean_mul_add]
    congr 1
    funext s
    exact ih _ _

/-- Lotteries that draw strategies which there are. -/
abbrev DrawFrom (shape : Shape) (lotteries : List Lottery) : Prop :=
  List.Forall₂ (fun n lottery => ∀ d ∈ lottery, d.1 < n) shape lotteries

/-- One player's draw may be replaced by another one. -/
theorem DrawFrom.set (h : DrawFrom shape lotteries) {lottery : Lottery}
    (hl : ∀ d ∈ lottery, d.1 < shape.count i) : DrawFrom shape (lotteries.set i lottery) := by
  induction h generalizing i with
  | nil => exact .nil
  | cons hd hrest ih =>
    cases i with
    | zero => exact .cons hl hrest
    | succ i =>
      rw [Shape.count_cons_succ] at hl
      exact .cons hd (ih hl)

/-- An expectation depends on what can be drawn only. -/
theorem DrawFrom.expectation_congr (h : DrawFrom shape lotteries)
    (hf : ∀ s, shape.Admits s → f s = f' s) :
    expectation lotteries f = expectation lotteries f' := by
  induction h generalizing f f' with
  | nil => exact hf [] trivial
  | @cons n lottery shape rest hd hrest ih =>
    rw [expectation_cons, expectation_cons]
    unfold Lottery.mean
    congr 1
    refine List.map_congr_left fun d hmem => ?_
    show d.2 * expectation rest _ = d.2 * expectation rest _
    rw [ih fun s hs => hf (d.1 :: s) ⟨hd d hmem, hs⟩]

/-- **What depends on the others only** does not depend on one's own draw. -/
theorem expectation_set_certain (hi : i < lotteries.length) (s : Nat) (f : List Nat → Rat) :
    (expectation (lotteries.set i (.certain s)) fun t => f (t.eraseIdx i))
      = expectation (lotteries.eraseIdx i) f := by
  induction lotteries generalizing i f with
  | nil => exact absurd hi (Nat.not_lt_zero i)
  | cons first rest ih =>
    cases i with
    | zero =>
      rw [List.set_cons_zero, expectation_cons, Lottery.mean_certain]
      rfl
    | succ i =>
      rw [List.set_cons_succ, expectation_cons, List.eraseIdx_cons_succ, expectation_cons]
      congr 1
      funext t
      exact ih (Nat.lt_of_succ_lt_succ hi) fun rest => f (t :: rest)

/-- What the players of a profile draw exists. -/
theorem Profile.drawFrom (p : Profile) : DrawFrom p.shape p.lotteries := by
  refine List.forall₂_iff_get.mpr ⟨p.length_lotteries.symm, fun i hi _ d hd => ?_⟩
  have hmem : d ∈ p.lottery i := by simpa [lotteries_eq] using hd
  obtain ⟨l, hl, rfl⟩ := exists_of_mem_lottery hmem
  have hr := l.inRange
  rw [hl, Shape.count_eq_getElem hi] at hr
  exact hr

end

/-! ## §2. Maxima of rescaled values -/

/-- A map that keeps the order keeps the first maximum. -/
theorem firstMax_map {α : Type} {φ : Rat → Rat} (hφ : ∀ u v, φ u < φ v ↔ u < v)
    (items : List (α × Rat)) :
    firstMax (items.map fun item => (item.1, φ item.2))
      = (firstMax items).map fun item => (item.1, φ item.2) := by
  cases items with
  | nil => rfl
  | cons first rest =>
    rw [List.map_cons, firstMax, firstMax, Option.map_some]
    congr 1
    -- the item that is kept for now changes along the list
    induction rest generalizing first with
    | nil => rfl
    | cons item rest ih =>
      rw [List.map_cons, List.foldl_cons, List.foldl_cons]
      dsimp only
      by_cases h : first.2 < item.2
      · rw [if_pos h, if_pos ((hφ _ _).mpr h)]
        exact ih item
      · rw [if_neg h, if_neg (mt (hφ _ _).mp h)]
        exact ih first

/-! ## §3. Rescaled games -/

/-- Every player's weights add up to one, whatever their signs. -/
def Profile.IsBalanced (p : Profile) : Prop :=
  ∀ i < p.shape.length, ∑ l with l.player = i, p.weights.get l = 1

theorem Profile.IsNormalized.isBalanced {p : Profile} (h : p.IsNormalized) : p.IsBalanced :=
  (p.isNormalized_iff.mp h).2

/-- The excess is multiplied. -/
def Deviation.scale {shape : Shape} (a : Rat) (d : Deviation shape) : Deviation shape :=
  { d with excess := a * d.excess }

namespace Game

/-- The payoffs of `g'` are those of `g` times `a`, and an amount for each player that
depends on the strategies of the others. -/
structure IsRescaled (a : Rat) (c : Nat → List Nat → Rat) (g g' : Game) : Prop where
  scale_pos : 0 < a
  shape_eq : g'.shape = g.shape
  payoff_eq : ∀ i < g.shape.length, ∀ s, g.shape.Admits s →
    g'.payoff i s = a * g.payoff i s + c i (s.eraseIdx i)

/-- The game with rescaled payoffs. -/
def rescale (a : Rat) (c : Nat → List Nat → Rat) (g : Game) : Game :=
  ofPayoff g.shape (fun i s => some (a * g.payoff i s + c i (s.eraseIdx i))) fun _ _ _ _ => rfl

theorem isRescaled_rescale {a : Rat} (ha : 0 < a) (c : Nat → List Nat → Rat) (g : Game) :
    g.IsRescaled a c (g.rescale a c) := ⟨ha, rfl, fun _ _ _ _ => rfl⟩

/-- What a player is given, whatever the player does. -/
def gift (c : Nat → List Nat → Rat) (p : Profile) (i : Nat) : Rat :=
  expectation (p.lotteries.eraseIdx i) (c i)

namespace IsRescaled

variable {a : Rat} {c : Nat → List Nat → Rat} {g g' : Game} {p : Profile}

/-- **All strategies of a player pay the same amount more**, apart from the factor. -/
theorem strategyPayoff_eq (h : IsRescaled a c g g') (hs : p.shape = g.shape) {i : Nat}
    {l : Label p.shape} (hl : l.player = i) :
    g'.strategyPayoff p i l.strategy = a * g.strategyPayoff p i l.strategy + gift c p i := by
  subst hl
  have hi := l.player_lt
  have hdraws : DrawFrom p.shape (p.lotteries.set l.player (.certain l.strategy)) := by
    refine p.drawFrom.set fun d hd => ?_
    rw [List.mem_singleton.mp hd]
    exact l.inRange
  -- only strategies that there are can be drawn, and for these the payoffs are known
  have hpayoff : ∀ s, p.shape.Admits s → g'.payoff l.player s
      = a * g.payoff l.player s + c l.player (s.eraseIdx l.player) :=
    fun s hadmits => h.payoff_eq l.player (hs ▸ hi) s (hs ▸ hadmits)
  unfold strategyPayoff payoffAgainst Profile.draws gift
  rw [hdraws.expectation_congr hpayoff, expectation_mul_add,
    expectation_set_certain (p.length_lotteries.symm ▸ hi)]

/-- **A player gets the same amount more**, because the weights add up to one. -/
theorem realised_eq (h : IsRescaled a c g g') (hs : p.shape = g.shape) (hb : p.IsBalanced)
    {i : Nat} (hi : i < p.shape.length) :
    g'.realised p i = a * g.realised p i + gift c p i := by
  calc g'.realised p i
      = ∑ l : Label p.shape with l.player = i,
          (a * (p.weights.get l * g.strategyPayoff p i l.strategy)
            + p.weights.get l * gift c p i) := by
        refine Finset.sum_congr rfl fun l hl => ?_
        rw [h.strategyPayoff_eq hs (Finset.mem_filter.mp hl).2]
        ring
    _ = a * g.realised p i + gift c p i := by
        rw [Finset.sum_add_distrib, ← Finset.mul_sum, ← Finset.sum_mul, hb i hi, one_mul]
        rfl

/-- **A best reply stays a best reply**, and its gain is multiplied. -/
theorem firstMax_replies (h : IsRescaled a c g g') (hs : p.shape = g.shape) (hb : p.IsBalanced)
    {i : Nat} (hi : i < p.shape.length) :
    ((firstMax (g'.replies p i)).map fun reply => (reply.1, reply.2 - g'.realised p i))
      = ((firstMax (g.replies p i)).map fun reply => (reply.1, reply.2 - g.realised p i)).map
        fun reply => (reply.1, a * reply.2) := by
  have hpays : g'.replies p i
      = (g.replies p i).map fun reply => (reply.1, a * reply.2 + gift c p i) := by
    rw [replies, replies, List.map_map]
    refine List.map_congr_left fun l hl => ?_
    rw [h.strategyPayoff_eq hs (Label.mem_ofPlayer.mp hl)]
    rfl
  -- neither the factor nor the gift changes which strategy pays more
  have hmono : ∀ u v, a * u + gift c p i < a * v + gift c p i ↔ u < v := by
    intro u v
    rw [add_lt_add_iff_right, mul_lt_mul_iff_right₀ h.scale_pos]
  rw [hpays, firstMax_map hmono, Option.map_map, Option.map_map, h.realised_eq hs hb hi]
  congr 1
  funext reply
  -- the gift is paid and received, so it drops out of the gain
  show (reply.1, a * reply.2 + gift c p i - (a * g.realised p i + gift c p i))
    = (reply.1, a * (reply.2 - g.realised p i))
  congr 1
  ring

/-- **Labels stay**, and the excess is multiplied. -/
theorem bestDeviation_eq (h : IsRescaled a c g g') (hs : p.shape = g.shape) (hb : p.IsBalanced) :
    g'.bestDeviation p = (g.bestDeviation p).map (Deviation.scale a) := by
  have hreplies : g'.bestReplies p
      = (g.bestReplies p).map fun reply => (reply.1, a * reply.2) := by
    rw [bestReplies_eq, bestReplies_eq, List.map_filterMap]
    exact List.filterMap_congr fun i hi => h.firstMax_replies hs hb (List.mem_range.mp hi)
  have hmono : ∀ u v, a * u < a * v ↔ u < v := fun u v => mul_lt_mul_iff_right₀ h.scale_pos
  -- a profile of the games' own shape asks for no payoff that there is not
  have hcovers : g.covers p = true := by simp [covers, hs]
  have hcovers' : g'.covers p = true := by simp [covers, hs, h.shape_eq]
  unfold bestDeviation
  rw [if_pos hcovers, if_pos hcovers', hreplies, firstMax_map hmono]
  cases p.shape.findIdx? (· == 0) with
  | some i => rfl
  | none => cases firstMax (g.bestReplies p) <;> rfl

end IsRescaled

end Game

end SimplicialNash
