/-
  SimplicialNash.Proofs.Deviation
  ───────────────────────────────
  Labels of profiles and what they say.

  A profile of the game's own shape always has a label
  (`Game.exists_bestDeviation`), and the excess that comes with it is what the
  labelled player gains by playing the labelled strategy for certain
  (`Game.excess_eq_gain`); nobody gains more (`Game.gain_le_excess`).  At one
  profile a player's gains average to zero (`Game.sum_mul_gain`), so the excess of
  a normalized profile is not negative (`Game.excess_nonneg`).  The excess of the
  incumbent is never above that of a profile that has been labelled
  (`Incumbent.regret_observe_le`).
-/
import Mathlib.Algebra.BigOperators.Ring.Finset
import Mathlib.Algebra.Order.BigOperators.Group.Finset
import SimplicialNash.Deviation
import SimplicialNash.Proofs.StrategyTable

namespace SimplicialNash

open SimplicialNash.Number (total)

/-! ## §1. The first item with the largest value -/

section

variable {α : Type} {items : List (α × Rat)} {best : α × Rat}

theorem firstMax_mem (h : firstMax items = some best) : best ∈ items := by
  cases items with
  | nil => cases h
  | cons first rest =>
    rw [firstMax, Option.some.injEq] at h
    subst h
    induction rest generalizing first with
    | nil => exact List.mem_cons_self
    | cons item rest ih =>
      rw [List.foldl_cons]
      split
      · exact List.mem_cons_of_mem _ (ih item)
      · rcases List.mem_cons.mp (ih first) with e | hm
        · rw [e]; exact List.mem_cons_self
        · exact List.mem_cons_of_mem _ (List.mem_cons_of_mem _ hm)

theorem exists_firstMax (h : items ≠ []) : ∃ best, firstMax items = some best := by
  cases items with
  | nil => exact absurd rfl h
  | cons first rest => exact ⟨_, rfl⟩

/-- No item has a larger value. -/
theorem le_of_firstMax (h : firstMax items = some best) : ∀ item ∈ items, item.2 ≤ best.2 := by
  cases items with
  | nil => cases h
  | cons first rest =>
    rw [firstMax, Option.some.injEq] at h
    subst h
    induction rest generalizing first with
    | nil =>
      intro item hitem
      rw [List.mem_singleton.mp hitem]
      exact le_refl first.2
    | cons next rest ih =>
      -- the item that is kept for now is above both the first and the next one
      have hkept := ih (if first.2 < next.2 then next else first)
      have hbest := hkept _ List.mem_cons_self
      intro item hitem
      rw [List.foldl_cons]
      rcases List.mem_cons.mp hitem with rfl | hitem
      · refine le_trans ?_ hbest
        split
        · next hlt => exact hlt.le
        · exact le_refl item.2
      rcases List.mem_cons.mp hitem with rfl | hitem
      · refine le_trans ?_ hbest
        split
        · exact le_refl item.2
        · next hlt => exact not_lt.mp hlt
      · exact hkept item (List.mem_cons_of_mem _ hitem)

/-- Of equals the first counts: what stands before the item that is found has a smaller
value. -/
theorem exists_split_of_firstMax (h : firstMax items = some best) :
    ∃ earlier later, items = earlier ++ best :: later ∧ ∀ item ∈ earlier, item.2 < best.2 := by
  cases items with
  | nil => cases h
  | cons first rest =>
    rw [firstMax, Option.some.injEq] at h
    subst h
    induction rest generalizing first with
    | nil => exact ⟨[], [], rfl, fun item hitem => absurd hitem List.not_mem_nil⟩
    | cons next rest ih =>
      rw [List.foldl_cons]
      by_cases hlt : first.2 < next.2
      · -- the first item is given up, and what is found is no smaller than the next one
        rw [if_pos hlt]
        obtain ⟨earlier, later, hsplit, hless⟩ := ih next
        have hfound : firstMax (next :: rest) = some _ := rfl
        have hmax := le_of_firstMax hfound next List.mem_cons_self
        refine ⟨first :: earlier, later, by rw [hsplit]; rfl, fun item hitem => ?_⟩
        rcases List.mem_cons.mp hitem with rfl | hitem
        · exact hlt.trans_le hmax
        · exact hless item hitem
      · rw [if_neg hlt]
        obtain ⟨earlier, later, hsplit, hless⟩ := ih first
        cases earlier with
        | nil =>
          -- the first item stays to the end
          obtain ⟨hfirst, -⟩ := List.cons.inj hsplit
          refine ⟨[], next :: rest, ?_, fun item hitem => absurd hitem List.not_mem_nil⟩
          rw [← hfirst]
          rfl
        | cons item earlier =>
          obtain ⟨rfl, hrest⟩ := List.cons.inj hsplit
          have hfirst := hless first List.mem_cons_self
          refine ⟨first :: next :: earlier, later, congrArg (first :: next :: ·) hrest,
            fun item hitem => ?_⟩
          rcases List.mem_cons.mp hitem with rfl | hitem
          · exact hfirst
          rcases List.mem_cons.mp hitem with rfl | hitem
          · exact (not_lt.mp hlt).trans_lt hfirst
          · exact hless item (List.mem_cons_of_mem _ hitem)

/-- **What comes before the first maximum is smaller**, in a list that is in order. -/
theorem lt_of_firstMax (key : α → Nat) (h : firstMax items = some best)
    (hsorted : items.Pairwise fun a b => key a.1 < key b.1) {item : α × Rat}
    (hitem : item ∈ items) (hkey : key item.1 < key best.1) : item.2 < best.2 := by
  obtain ⟨earlier, later, rfl, hless⟩ := exists_split_of_firstMax h
  rcases List.mem_append.mp hitem with hmem | hmem
  · exact hless item hmem
  · -- the item itself and what comes after it have no smaller key
    have hafter := (List.pairwise_cons.mp (List.pairwise_append.mp hsorted).2.1).1
    rcases List.mem_cons.mp hmem with rfl | hmem
    · exact absurd hkey (lt_irrefl _)
    · exact absurd (hafter item hmem) hkey.not_gt

end

/-! ## §2. Gains -/

/-- In a normalized profile every player has a strategy. -/
theorem Profile.IsNormalized.zero_notMem {p : Profile} (h : p.IsNormalized) : 0 ∉ p.shape := by
  intro h0
  obtain ⟨i, hi, hzero⟩ := List.mem_iff_getElem.mp h0
  have hsum := (p.isNormalized_iff.mp h).2 i hi
  rw [Finset.sum_eq_zero] at hsum
  · exact zero_ne_one hsum
  · intro l hl
    have hr := l.inRange
    rw [(Finset.mem_filter.mp hl).2, Shape.count_eq_getElem hi, hzero] at hr
    exact absurd hr (Nat.not_lt_zero _)

namespace Game

variable {g : Game} {p : Profile}

/-- What a player gets who plays as in the profile. -/
def realised (g : Game) (p : Profile) (player : Nat) : Rat :=
  ∑ k : Label p.shape with k.player = player, p.weights.get k * g.strategyPayoff p player k.strategy

/-- What a player gains by playing a strategy for certain. -/
def gain (g : Game) (p : Profile) (l : Label p.shape) : Rat :=
  g.strategyPayoff p l.player l.strategy - g.realised p l.player

/-- **Gains average to zero.** -/
theorem sum_mul_gain (h : p.IsNormalized) {i : Nat} (hi : i < p.shape.length) :
    ∑ l : Label p.shape with l.player = i, p.weights.get l * g.gain p l = 0 := by
  have hgain : ∑ l : Label p.shape with l.player = i, p.weights.get l * g.gain p l
      = ∑ l : Label p.shape with l.player = i,
        (p.weights.get l * g.strategyPayoff p i l.strategy - p.weights.get l * g.realised p i) := by
    refine Finset.sum_congr rfl fun l hl => ?_
    rw [gain, (Finset.mem_filter.mp hl).2, mul_sub]
  rw [hgain, Finset.sum_sub_distrib, ← Finset.sum_mul, (p.isNormalized_iff.mp h).2 i hi, one_mul]
  exact sub_self _

/-- What each strategy of a player pays. -/
def replies (g : Game) (p : Profile) (player : Nat) : List (Label p.shape × Rat) :=
  (Label.ofPlayer p.shape player).map fun l => (l, g.strategyPayoff p player l.strategy)

theorem mem_replies {i : Nat} {l : Label p.shape} {payoff : Rat} :
    (l, payoff) ∈ g.replies p i
      ↔ l.player = i ∧ payoff = g.strategyPayoff p i l.strategy := by
  rw [replies, List.mem_map]
  constructor
  · rintro ⟨k, hk, e⟩
    obtain ⟨rfl, rfl⟩ := Prod.mk.inj e
    exact ⟨Label.mem_ofPlayer.mp hk, rfl⟩
  · rintro ⟨hl, rfl⟩
    exact ⟨l, Label.mem_ofPlayer.mpr hl, rfl⟩

/-- A best reply is what pays most, and gains what it pays beyond what the player gets. -/
theorem bestReply?_eq_map (g : Game) (p : Profile) (i : Nat) :
    g.bestReply? p p.lotteries ((Label.ofPlayer p.shape i).map p.weights.get) i
      = (firstMax (g.replies p i)).map fun reply => (reply.1, reply.2 - g.realised p i) := by
  unfold bestReply? realised replies
  dsimp only
  rw [List.zipWith_map, List.zipWith_self, Label.total_map_ofPlayer]
  rfl

/-- **All best replies**, player by player. -/
theorem bestReplies_eq (g : Game) (p : Profile) :
    g.bestReplies p = (List.range p.shape.length).filterMap fun i =>
      (firstMax (g.replies p i)).map fun reply => (reply.1, reply.2 - g.realised p i) := by
  have hrows : p.rows.zipIdx = (List.range p.shape.length).map
      fun i => ((Label.ofPlayer p.shape i).map p.weights.get, i) := by
    rw [Profile.rows, StrategyTable.rows_eq]
    refine List.ext_getElem (by simp) fun i h1 h2 => ?_
    simp
  unfold bestReplies
  dsimp only
  rw [hrows, List.filterMap_map]
  exact List.filterMap_congr fun i _ => g.bestReply?_eq_map p i

/-- A best reply is the first strategy of its player that pays most, with its gain. -/
theorem mem_bestReplies {k : Label p.shape} {excess : Rat} :
    (k, excess) ∈ g.bestReplies p
      ↔ firstMax (g.replies p k.player) = some (k, g.strategyPayoff p k.player k.strategy)
        ∧ excess = g.gain p k := by
  have hk := k.player_lt
  rw [bestReplies_eq, List.mem_filterMap]
  constructor
  · rintro ⟨i, -, hreply⟩
    obtain ⟨⟨l, payoff⟩, hmax, he⟩ := Option.map_eq_some_iff.mp hreply
    obtain ⟨rfl, rfl⟩ := Prod.mk.inj he
    obtain ⟨rfl, rfl⟩ := mem_replies.mp (firstMax_mem hmax)
    exact ⟨hmax, rfl⟩
  · rintro ⟨hmax, rfl⟩
    exact ⟨k.player, List.mem_range.mpr hk, by rw [hmax]; rfl⟩

/-- Best replies are listed in the order of the players. -/
theorem pairwise_bestReplies (g : Game) (p : Profile) :
    (g.bestReplies p).Pairwise fun a b => a.1.player < b.1.player := by
  -- what is listed for a player is a strategy of that player
  have hplayer : ∀ {i : Nat} {reply : Label p.shape × Rat},
      ((firstMax (g.replies p i)).map fun reply => (reply.1, reply.2 - g.realised p i))
        = some reply → reply.1.player = i := by
    intro i reply h
    obtain ⟨found, hmax, rfl⟩ := Option.map_eq_some_iff.mp h
    exact (mem_replies.mp (firstMax_mem hmax)).1
  rw [bestReplies_eq]
  refine List.pairwise_lt_range.filterMap _ fun i j hij a ha b hb => ?_
  rw [hplayer ha, hplayer hb]
  exact hij

/-- Every player who has a strategy has a best reply, and it gains no less. -/
theorem exists_mem_bestReplies (g : Game) (p : Profile) (l : Label p.shape) :
    ∃ k, k.player = l.player ∧ (k, g.gain p k) ∈ g.bestReplies p ∧ g.gain p l ≤ g.gain p k := by
  have hl : (l, g.strategyPayoff p l.player l.strategy) ∈ g.replies p l.player :=
    mem_replies.mpr ⟨rfl, rfl⟩
  obtain ⟨⟨k, payoff⟩, hmax⟩ := exists_firstMax (List.ne_nil_of_mem hl)
  have hle : g.strategyPayoff p l.player l.strategy ≤ payoff := le_of_firstMax hmax _ hl
  obtain ⟨hplayer, rfl⟩ := mem_replies.mp (firstMax_mem hmax)
  rw [← hplayer] at hmax hle
  refine ⟨k, hplayer, mem_bestReplies.mpr ⟨hmax, rfl⟩, ?_⟩
  unfold gain
  rw [← hplayer]
  exact sub_le_sub_right hle _

/-- The label and the excess are the first best reply with the largest gain. -/
theorem firstMax_bestReplies {d : Deviation p.shape} (h : g.bestDeviation p = .ok d) :
    firstMax (g.bestReplies p) = some (d.label, d.excess) := by
  unfold bestDeviation at h
  split at h
  · split at h
    · cases h
    · split at h
      · next l excess hmax =>
        cases h
        exact hmax
      · cases h
  · cases h

/-- **The excess of a label is the gain.** -/
theorem excess_eq_gain {d : Deviation p.shape} (h : g.bestDeviation p = .ok d) :
    d.excess = g.gain p d.label :=
  (mem_bestReplies.mp (firstMax_mem (firstMax_bestReplies h))).2

/-- **No strategy of any player gains more.** -/
theorem gain_le_excess {d : Deviation p.shape} (h : g.bestDeviation p = .ok d)
    (l : Label p.shape) : g.gain p l ≤ d.excess := by
  obtain ⟨k, -, hk, hle⟩ := g.exists_mem_bestReplies p l
  exact hle.trans (le_of_firstMax (firstMax_bestReplies h) _ hk)

/-- **An excess is not negative**, because gains average to zero. -/
theorem excess_nonneg (hn : p.IsNormalized) {d : Deviation p.shape}
    (h : g.bestDeviation p = .ok d) : 0 ≤ d.excess := by
  obtain ⟨hnonneg, hsum⟩ := p.isNormalized_iff.mp hn
  have hi := d.label.player_lt
  calc 0 = ∑ l : Label p.shape with l.player = d.label.player, p.weights.get l * g.gain p l :=
        (g.sum_mul_gain hn hi).symm
    _ ≤ ∑ l : Label p.shape with l.player = d.label.player, p.weights.get l * d.excess :=
        Finset.sum_le_sum fun l _ => mul_le_mul_of_nonneg_left (gain_le_excess h l) (hnonneg l)
    _ = d.excess := by rw [← Finset.sum_mul, hsum _ hi, one_mul]

/-- **A profile of the game's shape has a label.** -/
theorem exists_bestDeviation (hs : p.shape = g.shape) (hne : p.shape ≠ []) (h0 : 0 ∉ p.shape) :
    ∃ d, g.bestDeviation p = .ok d := by
  have hcovers : g.covers p = true := by simp [covers, hs]
  have hzero : p.shape.findIdx? (· == 0) = none := by
    rw [List.findIdx?_eq_none_iff]
    intro n hn
    rw [beq_eq_false_iff_ne]
    rintro rfl
    exact h0 hn
  -- already the first player has a strategy, hence a best reply
  have hcount : 0 < p.shape.count 0 := Shape.count_pos h0 (List.length_pos_of_ne_nil hne)
  obtain ⟨k, -, hk, -⟩ := g.exists_mem_bestReplies p ⟨0, 0, hcount⟩
  obtain ⟨⟨l, excess⟩, hmax⟩ := exists_firstMax (List.ne_nil_of_mem hk)
  refine ⟨⟨l, excess⟩, ?_⟩
  rw [bestDeviation, if_pos hcovers, hzero, hmax]

end Game

/-! ## §3. The incumbent -/

namespace Incumbent

variable {inc : Incumbent} {p : Profile} {excess : Rat}

theorem regret_observe_le (inc : Incumbent) (p : Profile) (excess : Rat) :
    (inc.observe p excess).regret ≤ excess ∧ (inc.observe p excess).regret ≤ inc.regret := by
  unfold observe
  split
  · next h => exact ⟨le_refl _, h.le⟩
  · next h => exact ⟨not_lt.mp h, le_refl _⟩

end Incumbent

end SimplicialNash
