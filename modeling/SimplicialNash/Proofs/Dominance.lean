/-
  SimplicialNash.Proofs.Dominance
  ───────────────────────────────
  **Strategies that pay more than all others.**

  A strategy is strictly dominant if it pays its player more than each other one,
  whatever the others play (`Game.IsStrictlyDominant`).  A game has finitely many
  payoffs, so there is a margin by which it does (`Game.PaysMoreBy`,
  `Game.IsStrictlyDominant.exists_margin`), and against mixed strategies the margin is
  the same (`Game.PaysMoreBy.strategyPayoff_le`).

  So a player who puts weight on other strategies can gain the margin for all of it
  (`Game.PaysMoreBy.mul_le_gain`), and none of the other strategies is ever the label of a
  profile (`Game.PaysMoreBy.label_eq`).  A player who gains little by changing strategies at
  pure profiles gains little at mixed ones (`Game.GainsAtMost.gain_le`).
-/
import SimplicialNash.Proofs.Rescaling
import SimplicialNash.Proofs.Walk.Grid

namespace SimplicialNash

/-! ## §1. One player's strategy, and what the others draw -/

section

variable {shape : Shape} {lotteries : List Lottery} {f : List Nat → Rat} {i : Nat}

/-- **A strategy played for certain** takes the place of the one that is drawn. -/
theorem AreDraws.expectation_set_certain (h : AreDraws shape lotteries) (hi : i < shape.length)
    (s : Nat) (f : List Nat → Rat) :
    expectation (lotteries.set i (.certain s)) f = expectation lotteries fun t => f (t.set i s) := by
  induction h generalizing i f with
  | nil => exact absurd hi (Nat.not_lt_zero i)
  | cons hd hrest ih =>
    cases i with
    | zero =>
      -- what is drawn in its place does not matter
      rw [List.set_cons_zero, expectation_cons, expectation_cons, Lottery.mean_certain]
      exact (hd.mean_const _).symm
    | succ i =>
      rw [List.set_cons_succ, expectation_cons, expectation_cons]
      congr 1
      funext t
      exact ih (Nat.lt_of_succ_lt_succ hi) fun rest => f (t :: rest)

/-- What pays more against all pure strategies of the others pays more against mixed ones. -/
theorem AreDraws.expectation_certain_add_le (h : AreDraws shape lotteries) (hi : i < shape.length)
    {s t : Nat} {margin : Rat}
    (hf : ∀ profile, shape.Admits profile → f (profile.set i s) + margin ≤ f (profile.set i t)) :
    expectation (lotteries.set i (.certain s)) f + margin
      ≤ expectation (lotteries.set i (.certain t)) f := by
  have hadd := expectation_mul_add lotteries 1 (fun p => f (p.set i s)) fun _ => margin
  rw [one_mul, h.expectation_const] at hadd
  rw [h.expectation_set_certain hi, h.expectation_set_certain hi, ← hadd]
  refine h.expectation_mono fun profile hp => ?_
  rw [one_mul]
  exact hf profile hp

end

namespace Game

variable {g : Game} {p : Profile} {player strategy : Nat} {margin : Rat}

/-! ## §2. Dominant strategies -/

/-- A strategy pays its player more than each other one, whatever the others play. -/
def IsStrictlyDominant (g : Game) (player strategy : Nat) : Prop :=
  strategy < g.shape.count player
    ∧ ∀ other < g.shape.count player, other ≠ strategy → ∀ profile, g.shape.Admits profile →
      g.payoff player (profile.set player other) < g.payoff player (profile.set player strategy)

/-- A strategy pays its player more than each other one by a margin at least, whatever
the others play. -/
def PaysMoreBy (g : Game) (player strategy : Nat) (margin : Rat) : Prop :=
  ∀ other < g.shape.count player, other ≠ strategy → ∀ profile, g.shape.Admits profile →
    g.payoff player (profile.set player other) + margin
      ≤ g.payoff player (profile.set player strategy)

/-- Changing the strategy at a pure profile never pays the player more than a bound. -/
def GainsAtMost (g : Game) (player : Nat) (bound : Rat) : Prop :=
  ∀ strategy < g.shape.count player, ∀ profile, g.shape.Admits profile →
    g.payoff player (profile.set player strategy) ≤ g.payoff player profile + bound

/-- What holds of all pure profiles is checked profile by profile. -/
instance decidableForallAdmits (shape : Shape) (P : List Nat → Prop) [DecidablePred P] :
    Decidable (∀ profile, shape.Admits profile → P profile) :=
  decidable_of_iff (∀ profile ∈ PureProfile.all shape, P profile)
    (forall_congr' fun _ => imp_congr_left PureProfile.mem_all)

instance : Decidable (g.IsStrictlyDominant player strategy) :=
  inferInstanceAs (Decidable (_ ∧ _))

instance : Decidable (g.PaysMoreBy player strategy margin) :=
  inferInstanceAs (Decidable (∀ other < _, _))

instance : Decidable (g.GainsAtMost player margin) :=
  inferInstanceAs (Decidable (∀ strategy < _, _))

/-- Finitely many positive numbers have a positive bound below them. -/
theorem exists_pos_le_of_forall_pos {qs : List Rat} (h : ∀ q ∈ qs, 0 < q) :
    ∃ bound, 0 < bound ∧ ∀ q ∈ qs, bound ≤ q := by
  induction qs with
  | nil => exact ⟨1, one_pos, fun q hq => absurd hq List.not_mem_nil⟩
  | cons q qs ih =>
    obtain ⟨bound, hpos, hbound⟩ := ih fun r hr => h r (List.mem_cons_of_mem q hr)
    refine ⟨min q bound, lt_min (h q List.mem_cons_self) hpos, fun r hr => ?_⟩
    rcases List.mem_cons.mp hr with rfl | hr
    · exact min_le_left _ _
    · exact (min_le_right _ _).trans (hbound r hr)

/-- **A dominant strategy has a margin**, because there are finitely many pure profiles. -/
theorem IsStrictlyDominant.exists_margin (h : g.IsStrictlyDominant player strategy) :
    ∃ margin, 0 < margin ∧ g.PaysMoreBy player strategy margin := by
  -- how much more the strategy pays than one of the others at one of the profiles
  let leads : List Rat := ((List.range (g.shape.count player)).filter (· ≠ strategy)).flatMap
    fun other => (PureProfile.all g.shape).map fun profile =>
      g.payoff player (profile.set player strategy) - g.payoff player (profile.set player other)
  have hmem : ∀ other < g.shape.count player, other ≠ strategy → ∀ profile,
      g.shape.Admits profile → g.payoff player (profile.set player strategy)
        - g.payoff player (profile.set player other) ∈ leads := by
    intro other hother hne profile hp
    refine List.mem_flatMap.mpr ⟨other, ?_, List.mem_map.mpr ⟨profile, PureProfile.mem_all.mpr hp,
      rfl⟩⟩
    exact List.mem_filter.mpr ⟨List.mem_range.mpr hother, decide_eq_true hne⟩
  have hpos : ∀ lead ∈ leads, 0 < lead := by
    intro lead hlead
    obtain ⟨other, hother, hlead⟩ := List.mem_flatMap.mp hlead
    obtain ⟨profile, hp, rfl⟩ := List.mem_map.mp hlead
    obtain ⟨hrange, hne⟩ := List.mem_filter.mp hother
    exact sub_pos.mpr (h.2 other (List.mem_range.mp hrange) (of_decide_eq_true hne) profile
      (PureProfile.mem_all.mp hp))
  obtain ⟨margin, hmargin, hbound⟩ := exists_pos_le_of_forall_pos hpos
  refine ⟨margin, hmargin, fun other hother hne profile hp => ?_⟩
  have hlead := hbound _ (hmem other hother hne profile hp)
  linarith

/-! ## §3. Gains -/

namespace PaysMoreBy

variable {l k : Label p.shape}

/-- **Against mixed strategies** the margin is the same. -/
theorem strategyPayoff_le (h : g.PaysMoreBy l.player l.strategy margin) (hs : p.shape = g.shape)
    (hn : p.IsNormalized) (hk : k.player = l.player) (hne : k ≠ l) :
    g.strategyPayoff p k.player k.strategy + margin ≤ g.strategyPayoff p l.player l.strategy := by
  have hi := l.player_lt
  have hcount : k.strategy < g.shape.count l.player := by
    rw [← hs, ← hk]
    exact k.inRange
  have hother : k.strategy ≠ l.strategy := fun e => hne (Label.ext hk e)
  rw [hk]
  refine hn.areDraws.expectation_certain_add_le hi fun profile hp => ?_
  exact h k.strategy hcount hother profile (hs ▸ hp)

theorem gain_add_le (h : g.PaysMoreBy l.player l.strategy margin) (hs : p.shape = g.shape)
    (hn : p.IsNormalized) (hk : k.player = l.player) (hne : k ≠ l) :
    g.gain p k + margin ≤ g.gain p l := by
  have hpayoff := h.strategyPayoff_le hs hn hk hne
  unfold gain
  rw [hk] at hpayoff ⊢
  linarith

/-- **All weight on other strategies** can gain the margin. -/
theorem mul_le_gain (h : g.PaysMoreBy l.player l.strategy margin) (hs : p.shape = g.shape)
    (hn : p.IsNormalized) : margin * (1 - p.weights.get l) ≤ g.gain p l := by
  have hi := l.player_lt
  obtain ⟨hnonneg, hsum⟩ := p.isNormalized_iff.mp hn
  have hone := hsum l.player hi
  have hmem : l ∈ ({k | k.player = l.player} : Finset (Label p.shape)) :=
    Finset.mem_filter.mpr ⟨Finset.mem_univ l, rfl⟩
  have hterm : ∀ k : Label p.shape, k.player = l.player →
      p.weights.get k * g.gain p k
        ≤ p.weights.get k * (g.gain p l - margin) + if k = l then p.weights.get l * margin else 0 := by
    intro k hk
    by_cases hkl : k = l
    · subst hkl
      rw [if_pos rfl]
      linarith
    · have hgain := h.gain_add_le hs hn hk hkl
      rw [if_neg hkl, add_zero]
      exact mul_le_mul_of_nonneg_left (by linarith) (hnonneg k)
  -- gains average to zero
  have hle : (0 : Rat) ≤ (g.gain p l - margin) + p.weights.get l * margin := by
    calc (0 : Rat) = ∑ k : Label p.shape with k.player = l.player, p.weights.get k * g.gain p k :=
          (g.sum_mul_gain hn hi).symm
      _ ≤ ∑ k : Label p.shape with k.player = l.player,
            (p.weights.get k * (g.gain p l - margin)
              + if k = l then p.weights.get l * margin else 0) :=
          Finset.sum_le_sum fun k hk => hterm k (Finset.mem_filter.mp hk).2
      _ = (g.gain p l - margin) + p.weights.get l * margin := by
          rw [Finset.sum_add_distrib, ← Finset.sum_mul, hone, one_mul, Finset.sum_ite_eq',
            if_pos hmem]
  linarith

/-- **No other strategy of the player is a label.** -/
theorem label_eq (h : g.PaysMoreBy l.player l.strategy margin) (hmargin : 0 < margin)
    (hs : p.shape = g.shape) (hn : p.IsNormalized) {d : Deviation p.shape}
    (hd : g.bestDeviation p = .ok d) (hplayer : d.label.player = l.player) : d.label = l := by
  by_contra hne
  have hbest := gain_le_excess hd l
  have hless := h.gain_add_le hs hn hplayer hne
  rw [excess_eq_gain hd] at hbest
  linarith

end PaysMoreBy

/-- A player who plays a strategy for certain gains nothing by playing it. -/
theorem gain_eq_zero (g : Game) (hn : p.IsNormalized) {l : Label p.shape}
    (h : p.weights.get l = 1) : g.gain p l = 0 := by
  have hi := l.player_lt
  obtain ⟨hnonneg, hsum⟩ := p.isNormalized_iff.mp hn
  have hmem : l ∈ ({k | k.player = l.player} : Finset (Label p.shape)) :=
    Finset.mem_filter.mpr ⟨Finset.mem_univ l, rfl⟩
  -- nothing is left for the other strategies
  have hrest : ∑ k ∈ ({k | k.player = l.player} : Finset (Label p.shape)).erase l,
      p.weights.get k = 0 := by
    have hone := hsum l.player hi
    rw [← Finset.add_sum_erase _ _ hmem, h] at hone
    linarith
  have hzero := (Finset.sum_eq_zero_iff_of_nonneg fun k _ => hnonneg k).mp hrest
  have hmean := g.sum_mul_gain hn hi
  rwa [Finset.sum_eq_single_of_mem l hmem fun k hk hne => by
    rw [hzero k (Finset.mem_erase.mpr ⟨hne, hk⟩), zero_mul], h, one_mul] at hmean

/-- **What pays little at pure profiles** pays little at mixed ones. -/
theorem GainsAtMost.gain_le {l : Label p.shape} {bound : Rat} (h : g.GainsAtMost l.player bound)
    (hs : p.shape = g.shape) (hn : p.IsNormalized) : g.gain p l ≤ bound := by
  have hi := l.player_lt
  have hadd := expectation_mul_add p.lotteries 1 (g.payoff l.player) fun _ => bound
  rw [one_mul, hn.areDraws.expectation_const] at hadd
  have hpayoff : g.strategyPayoff p l.player l.strategy
      = expectation p.lotteries fun profile => g.payoff l.player (profile.set l.player l.strategy) :=
    hn.areDraws.expectation_set_certain hi l.strategy _
  rw [gain, g.realised_eq p hi, sub_le_iff_le_add', hpayoff, ← hadd]
  refine hn.areDraws.expectation_mono fun profile hp => ?_
  rw [one_mul]
  exact h l.strategy (hs ▸ l.inRange) profile (hs ▸ hp)

end Game

/-! ## §4. Weights -/

namespace Profile

variable {p : Profile}

/-- **On a grid** all weight is on one strategy, or a mesh at least is on others. -/
theorem IsNormalized.weight_eq_one (hn : p.IsNormalized) {mesh : Rat} (hmesh : 0 < mesh)
    (hg : p.IsOnGrid mesh) (l : Label p.shape) (h : 1 - p.weights.get l < mesh) :
    p.weights.get l = 1 := by
  have hi := l.player_lt
  obtain ⟨-, hsum⟩ := p.isNormalized_iff.mp hn
  have hle := hn.weight_le_one l
  -- what is on other strategies is a multiple of the mesh, too
  have hunits : ∀ k, ∃ z : Int, p.weights.get k = z * mesh := fun k =>
    hg _ (StrategyTable.mem_toList.mpr ⟨k, rfl⟩)
  choose z hz using hunits
  have hrest : 1 - p.weights.get l
      = ((∑ k with k.player = l.player, z k - z l : Int) : Rat) * mesh := by
    rw [← hsum l.player hi, hz l]
    simp only [hz]
    push_cast
    rw [← Finset.sum_mul]
    ring
  rw [hrest] at h
  have hlt : ∑ k with k.player = l.player, z k - z l < 1 := by
    have hcast : ((∑ k with k.player = l.player, z k - z l : Int) : Rat) < 1 :=
      lt_of_mul_lt_mul_right (h.trans_eq (one_mul mesh).symm) hmesh.le
    exact_mod_cast hcast
  have hnonpos : 1 - p.weights.get l ≤ 0 := by
    rw [hrest]
    refine mul_nonpos_of_nonpos_of_nonneg ?_ hmesh.le
    exact_mod_cast Int.lt_add_one_iff.mp hlt
  linarith

end Profile

end SimplicialNash
