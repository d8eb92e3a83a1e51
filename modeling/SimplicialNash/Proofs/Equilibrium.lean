/-
  SimplicialNash.Proofs.Equilibrium
  ─────────────────────────────────
  **The label of a profile is the most profitable deviation, mixed ones included.**

  A player deviates by playing a mixed strategy in place of the weights in the profile
  (`Profile.switch`).  The draws of the others stay as they are, so the deviation gains the
  mean of what the pure ones gain (`Game.switchGain_eq_sum`), and one of these gains no less
  (`Game.exists_switchGain_le`).

  Main statement: `Game.exists_isMostProfitable`.  The excess of a profile is the largest gain
  of all players and all their mixed strategies; it is not negative, and zero exactly at an
  equilibrium.  The label names the first player who can gain as much, and the first of that
  player's best replies.
-/
import Mathlib.Algebra.BigOperators.Fin
import SimplicialNash.Proofs.PureProfile

namespace SimplicialNash

/-! ## §1. Mixed strategies -/

/-- A probability distribution over `n` strategies. -/
structure MixedStrategy (n : Nat) where
  weight : Fin n → Rat
  nonneg : ∀ s, 0 ≤ weight s
  sum_eq_one : ∑ s, weight s = 1

/-- A strategy played for certain. -/
def MixedStrategy.pure {n : Nat} (s : Fin n) : MixedStrategy n where
  weight t := if t = s then 1 else 0
  nonneg t := by split <;> decide
  sum_eq_one := by rw [Finset.sum_ite_eq', if_pos (Finset.mem_univ s)]

/-- A player's labels are numbered by the player's strategies. -/
theorem Label.sum_eq_sum_fin {shape : Shape} (F : Label shape → Rat) (i : Nat) :
    ∑ l with l.player = i, F l = ∑ s : Fin (shape.count i), F ⟨i, s, s.isLt⟩ := by
  rw [← total_map_ofPlayer, ofPlayer, List.map_map, Number.total_eq_sum, Fin.sum_univ_def]
  rfl

namespace Profile

variable {p : Profile} {i : Nat}

/-- The profile in which one player plays a mixed strategy instead. -/
def switch (p : Profile) (i : Nat) (q : MixedStrategy (p.shape.count i)) : Profile :=
  ⟨p.shape, .tabulate fun l =>
    if h : l.player = i then q.weight ⟨l.strategy, h ▸ l.inRange⟩ else p.weights.get l⟩

theorem get_switch_self (q : MixedStrategy (p.shape.count i)) (s : Fin (p.shape.count i)) :
    (p.switch i q).weights.get ⟨i, s, s.isLt⟩ = q.weight s := by
  exact (StrategyTable.get_tabulate _ _).trans (dif_pos rfl)

theorem get_switch_of_ne (q : MixedStrategy (p.shape.count i)) {l : Label p.shape}
    (h : l.player ≠ i) : (p.switch i q).weights.get l = p.weights.get l := by
  exact (StrategyTable.get_tabulate _ _).trans (dif_neg h)

end Profile

namespace Game

variable {g : Game} {p : Profile} {i : Nat}

/-! ## §2. Gains of mixed strategies -/

/-- What a player gains by switching to a mixed strategy. -/
def switchGain (g : Game) (p : Profile) (i : Nat) (q : MixedStrategy (p.shape.count i)) : Rat :=
  g.expectedPayoff (p.switch i q) i - g.expectedPayoff p i

/-- What a strategy pays does not depend on what its player plays. -/
theorem strategyPayoff_switch (g : Game) (p : Profile) (q : MixedStrategy (p.shape.count i))
    (s : Nat) : g.strategyPayoff (p.switch i q) i s = g.strategyPayoff p i s := by
  unfold strategyPayoff payoffAgainst Profile.draws
  -- only the player's own draw changes, and the strategy is played in place of it
  have h : (p.switch i q).lotteries = p.lotteries.set i ((p.switch i q).lottery i) :=
    Profile.lotteries_eq_set fun l hl => Profile.get_switch_of_ne q hl
  rw [h, List.set_set]

/-- **A mixed strategy gains the mean of what its strategies gain.** -/
theorem switchGain_eq_sum (g : Game) (hi : i < p.shape.length)
    (q : MixedStrategy (p.shape.count i)) :
    g.switchGain p i q = ∑ s, q.weight s * g.gain p ⟨i, s, s.isLt⟩ := by
  have hpaid : g.expectedPayoff (p.switch i q) i
      = ∑ s, q.weight s * g.strategyPayoff p i s := by
    rw [g.expectedPayoff_eq_realised (p.switch i q) hi, realised, Label.sum_eq_sum_fin]
    refine Finset.sum_congr rfl fun s _ => ?_
    rw [g.strategyPayoff_switch]
    exact congrArg (· * g.strategyPayoff p i s) (Profile.get_switch_self q s)
  calc g.switchGain p i q
      = ∑ s, q.weight s * g.strategyPayoff p i s - (∑ s, q.weight s) * g.realised p i := by
        rw [switchGain, hpaid, g.expectedPayoff_eq_realised p hi, q.sum_eq_one, one_mul]
    _ = ∑ s, q.weight s * g.gain p ⟨i, s, s.isLt⟩ := by
        rw [Finset.sum_mul, ← Finset.sum_sub_distrib]
        exact Finset.sum_congr rfl fun s _ => (mul_sub _ _ _).symm

theorem switchGain_pure (g : Game) (l : Label p.shape) :
    g.switchGain p l.player (.pure ⟨l.strategy, l.inRange⟩) = g.gain p l := by
  rw [g.switchGain_eq_sum l.player_lt]
  simp [MixedStrategy.pure]

/-- **One of the pure strategies gains no less than a mixed one.** -/
theorem exists_switchGain_le (g : Game) (hi : i < p.shape.length)
    (q : MixedStrategy (p.shape.count i)) :
    ∃ l : Label p.shape, l.player = i ∧ g.switchGain p i q ≤ g.gain p l := by
  -- weights that sum to one are weights of something
  have hne : (Finset.univ : Finset (Fin (p.shape.count i))).Nonempty := by
    by_contra hempty
    have hone := q.sum_eq_one
    rw [Finset.not_nonempty_iff_eq_empty.mp hempty, Finset.sum_empty] at hone
    exact zero_ne_one hone
  obtain ⟨best, -, hbest⟩ := Finset.exists_max_image Finset.univ
    (fun s : Fin (p.shape.count i) => g.gain p ⟨i, s, s.isLt⟩) hne
  refine ⟨⟨i, best, best.isLt⟩, rfl, ?_⟩
  calc g.switchGain p i q = ∑ s, q.weight s * g.gain p ⟨i, s, s.isLt⟩ := g.switchGain_eq_sum hi q
    _ ≤ ∑ s, q.weight s * g.gain p ⟨i, best, best.isLt⟩ :=
        Finset.sum_le_sum fun s hs => mul_le_mul_of_nonneg_left (hbest s hs) (q.nonneg s)
    _ = g.gain p ⟨i, best, best.isLt⟩ := by rw [← Finset.sum_mul, q.sum_eq_one, one_mul]

/-! ## §3. The most profitable deviation -/

/-- Nobody gains by switching to a mixed strategy. -/
def IsEquilibrium (g : Game) (p : Profile) : Prop :=
  ∀ i < p.shape.length, ∀ q : MixedStrategy (p.shape.count i),
    g.expectedPayoff (p.switch i q) i ≤ g.expectedPayoff p i

/-- The strategies that pay a player most against what the others play. -/
def bestAgainst (g : Game) (p : Profile) (i : Nat) : Set Nat :=
  {s | s < p.shape.count i
    ∧ ∀ t < p.shape.count i, g.strategyPayoff p i t ≤ g.strategyPayoff p i s}

/-- A deviation gains most, and it is the first of those that do. -/
structure IsMostProfitable (g : Game) (p : Profile) (d : Deviation p.shape) : Prop where
  /-- The excess is the largest gain of all players and mixed strategies. -/
  isGreatest : IsGreatest
    {gain | ∃ i < p.shape.length, ∃ q, gain = g.switchGain p i q} d.excess
  /-- The labelled strategy gains it, played for certain. -/
  attained : g.switchGain p d.label.player (.pure ⟨d.label.strategy, d.label.inRange⟩) = d.excess
  nonneg : 0 ≤ d.excess
  eq_zero_iff : d.excess = 0 ↔ g.IsEquilibrium p
  /-- Nobody before the labelled player has the excess for the largest gain. -/
  first_player : IsLeast
    {i | i < p.shape.length ∧ IsGreatest (Set.range (g.switchGain p i)) d.excess} d.label.player
  /-- The labelled strategy is the first best reply. -/
  first_strategy : IsLeast (g.bestAgainst p d.label.player) d.label.strategy

/-- Both players show a rock. -/
def rocks : Profile := ⟨[3, 3], .tabulate fun l => if l.strategy = 0 then 1 else 0⟩

section

variable {d : Deviation p.shape}

theorem switchGain_le_excess (h : g.bestDeviation p = .ok d) (hi : i < p.shape.length)
    (q : MixedStrategy (p.shape.count i)) : g.switchGain p i q ≤ d.excess := by
  obtain ⟨l, -, hle⟩ := g.exists_switchGain_le hi q
  exact hle.trans (gain_le_excess h l)

theorem switchGain_label (h : g.bestDeviation p = .ok d) :
    g.switchGain p d.label.player (.pure ⟨d.label.strategy, d.label.inRange⟩) = d.excess := by
  rw [switchGain_pure, excess_eq_gain h]

/-- **Players before the labelled one gain less.** -/
theorem switchGain_lt_excess (h : g.bestDeviation p = .ok d) (hi : i < p.shape.length)
    (hlt : i < d.label.player) (q : MixedStrategy (p.shape.count i)) :
    g.switchGain p i q < d.excess := by
  obtain ⟨l, rfl, hle⟩ := g.exists_switchGain_le hi q
  -- the player's best reply is listed before the one that the label names
  obtain ⟨k, hplayer, hk, hlk⟩ := g.exists_mem_bestReplies p l
  have hless := lt_of_firstMax Label.player (firstMax_bestReplies h) (g.pairwise_bestReplies p)
    hk (hplayer ▸ hlt)
  exact (hle.trans hlk).trans_lt hless

theorem isEquilibrium_iff (hn : p.IsNormalized) (h : g.bestDeviation p = .ok d) :
    d.excess = 0 ↔ g.IsEquilibrium p := by
  constructor
  · intro hzero i hi q
    have hle := switchGain_le_excess h hi q
    rw [hzero] at hle
    exact sub_nonpos.mp hle
  · -- at an equilibrium not even the labelled strategy gains
    intro heq
    have hle := heq _ d.label.player_lt (.pure ⟨d.label.strategy, d.label.inRange⟩)
    refine le_antisymm ?_ (excess_nonneg hn h)
    rw [← switchGain_label h]
    exact sub_nonpos.mpr hle

/-- Strategies are listed in order. -/
theorem pairwise_replies (g : Game) (p : Profile) (i : Nat) :
    (g.replies p i).Pairwise fun a b => a.1.strategy < b.1.strategy := by
  rw [replies, Label.ofPlayer, List.map_map, List.pairwise_map]
  exact List.pairwise_lt_finRange _

theorem isLeast_bestAgainst (h : g.bestDeviation p = .ok d) :
    IsLeast (g.bestAgainst p d.label.player) d.label.strategy := by
  have hmax := (mem_bestReplies.mp (firstMax_mem (firstMax_bestReplies h))).1
  refine ⟨⟨d.label.inRange, fun t ht => ?_⟩, fun s hs => ?_⟩
  · exact le_of_firstMax hmax (⟨d.label.player, t, ht⟩, _) (mem_replies.mpr ⟨rfl, rfl⟩)
  · -- a best reply before the labelled one would be the first maximum
    by_contra hlt
    have hmem : (⟨d.label.player, s, hs.1⟩, g.strategyPayoff p d.label.player s)
        ∈ g.replies p d.label.player := mem_replies.mpr ⟨rfl, rfl⟩
    have hless := lt_of_firstMax Label.strategy hmax (g.pairwise_replies p _) hmem
      (not_le.mp hlt)
    exact absurd (hs.2 _ d.label.inRange) (not_le.mpr hless)

theorem isGreatest_excess (h : g.bestDeviation p = .ok d) :
    IsGreatest {gain | ∃ i < p.shape.length, ∃ q, gain = g.switchGain p i q} d.excess := by
  constructor
  · exact ⟨_, d.label.player_lt, _, (switchGain_label h).symm⟩
  · rintro gain ⟨i, hi, q, rfl⟩
    exact switchGain_le_excess h hi q

theorem isLeast_player (h : g.bestDeviation p = .ok d) :
    IsLeast {i | i < p.shape.length ∧ IsGreatest (Set.range (g.switchGain p i)) d.excess}
      d.label.player := by
  have hi := d.label.player_lt
  refine ⟨⟨hi, ⟨_, switchGain_label h⟩, ?_⟩, ?_⟩
  · rintro gain ⟨q, rfl⟩
    exact switchGain_le_excess h hi q
  · rintro i ⟨hi, ⟨q, hq⟩, -⟩
    by_contra hlt
    exact absurd hq (switchGain_lt_excess h hi (not_le.mp hlt) q).ne

/-- **The most profitable deviation.**  Every profile of the game's shape has a label, and it
is the first deviation that gains most, mixed ones included. -/
theorem exists_isMostProfitable (hne : g.shape ≠ []) (hs : p.shape = g.shape)
    (hn : p.IsNormalized) : ∃ d, g.bestDeviation p = .ok d ∧ g.IsMostProfitable p d := by
  obtain ⟨d, hd⟩ := exists_bestDeviation hs (hs ▸ hne) hn.zero_notMem
  exact ⟨d, hd, {
    isGreatest := isGreatest_excess hd
    attained := switchGain_label hd
    nonneg := excess_nonneg hn hd
    eq_zero_iff := isEquilibrium_iff hn hd
    first_player := isLeast_player hd
    first_strategy := isLeast_bestAgainst hd }⟩

/-- When both show a rock, each would gain a point with paper; the first player is named. -/
theorem exists_isMostProfitable_rocks :
    ∃ d, ClassicGame.rockPaperScissors.game.toGame.bestDeviation rocks = .ok d
      ∧ (d.label.player, d.label.strategy, d.excess) = (0, 1, 1)
      ∧ ClassicGame.rockPaperScissors.game.toGame.IsMostProfitable rocks d := by
  obtain ⟨d, hd, hmost⟩ := exists_isMostProfitable
    (show ClassicGame.rockPaperScissors.game.toGame.shape ≠ [] by decide +kernel)
    (show rocks.shape = ClassicGame.rockPaperScissors.game.toGame.shape by decide +kernel)
    (show rocks.IsNormalized by decide +kernel)
  have hpaper : ClassicGame.rockPaperScissors.game.toGame.bestDeviation rocks
      = .ok ⟨⟨0, 1, by decide⟩, 1⟩ := by
    decide +kernel
  obtain rfl := Except.ok.inj (hpaper.symm.trans hd)
  exact ⟨_, hd, rfl, hmost⟩

end

end Game

end SimplicialNash
