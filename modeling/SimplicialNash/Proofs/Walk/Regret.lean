/-
  SimplicialNash.Proofs.Walk.Regret
  ─────────────────────────────────
  **A fully labelled cell is near an equilibrium.**

  One grid step moves one mesh of weight between two strategies of a player, so no
  gain changes by more than twice the spread of the payoffs times the mesh
  (`Game.abs_gain_transfer_le`), and from one vertex of a cell to another there are
  no more steps than strategies (`Cell.IsValid.gain_le`).

  Where the walk is finished, every strategy of some player that is played at some
  vertex is the best reply at a vertex of the same cell, with a gain not below the
  regret of the incumbent.  At one and the same vertex the gains of a player average
  to zero, so that regret is no more than gains differ across the cell
  (`Cell.IsFinal.regret_le`).
-/
import Mathlib.Algebra.Order.BigOperators.Group.Finset
import Mathlib.Tactic.Linarith
import Mathlib.Tactic.NormNum
import SimplicialNash.Proofs.Expectation
import SimplicialNash.Proofs.Walk.Pass

namespace SimplicialNash

open Label

variable {shape : Shape}

/-! ## §1. One grid step -/

section

variable {g : Game} {y : Point shape} {a b l : Label shape} {w : Rat} {i s : Nat}

namespace Profile

/-- A mean over the draw of the player whose weight is moved. -/
theorem mean_lottery_transfer (hab : b.player = a.player) (F : Nat → Rat) :
    (lottery ⟨shape, y.transfer a b w⟩ a.player).mean F
      = (lottery ⟨shape, y⟩ a.player).mean F + w * (F b.strategy - F a.strategy) := by
  have hone : ∀ c : Label shape, c.player = a.player →
      ∑ k : Label shape with k.player = a.player, (if k = c then w else 0) * F k.strategy
        = w * F c.strategy := by
    intro c hc
    rw [Finset.sum_eq_single c]
    · rw [if_pos rfl]
    · intro k _ hk
      rw [if_neg hk, zero_mul]
    · intro hn
      exact absurd (Finset.mem_filter.mpr ⟨Finset.mem_univ c, hc⟩) hn
  rw [mean_lottery, mean_lottery]
  simp only [Point.get_transfer, sub_mul, add_mul]
  rw [Finset.sum_sub_distrib, Finset.sum_add_distrib, hone b hab, hone a rfl]
  ring

/-- Only one player's draw changes. -/
theorem lotteries_transfer (hab : b.player = a.player) :
    lotteries ⟨shape, y.transfer a b w⟩
      = (lotteries ⟨shape, y⟩).set a.player (lottery ⟨shape, y.transfer a b w⟩ a.player) := by
  refine lotteries_eq_set fun l hl => ?_
  have hla : l ≠ a := fun e => hl (by rw [e])
  have hlb : l ≠ b := fun e => hl (by rw [e, hab])
  rw [Point.get_transfer, if_neg hla, if_neg hlb, add_zero, sub_zero]

end Profile

namespace Game

/-- **What a strategy pays** changes by no more than the moved weight's share of the
spread. -/
theorem abs_strategyPayoff_transfer_le (hs : shape = g.shape)
    (hn : Profile.IsNormalized ⟨shape, y⟩) (hw : 0 ≤ w) (hab : b.player = a.player)
    (l : Label shape) :
    |g.strategyPayoff ⟨shape, y.transfer a b w⟩ l.player l.strategy
      - g.strategyPayoff ⟨shape, y⟩ l.player l.strategy| ≤ w * g.spread := by
  subst hs
  have hl := l.player_lt
  have hb : b.strategy < g.shape.count a.player := hab ▸ b.inRange
  have hdraws := hn.areDraws.set (Lottery.isDraw_certain l.inRange)
  unfold strategyPayoff payoffAgainst Profile.draws
  rw [Profile.lotteries_transfer hab]
  by_cases he : a.player = l.player
  · -- the player's own weights do not count
    rw [he, List.set_set, sub_self, abs_zero]
    exact mul_nonneg hw (g.spread_nonneg hdraws hl)
  · rw [List.set_comm _ _ he, ← Profile.set_lotteries ⟨g.shape, y⟩ a.player,
      List.set_comm _ _ he, List.set_set]
    exact abs_expectation_set_moved_le hdraws hl hw a.inRange hb
      (Profile.mean_lottery_transfer hab)

/-- **What a player gets** changes by no more, either. -/
theorem abs_realised_transfer_le (hs : shape = g.shape)
    (hn : Profile.IsNormalized ⟨shape, y⟩) (hw : 0 ≤ w) (hab : b.player = a.player)
    (hi : i < shape.length) :
    |g.realised ⟨shape, y.transfer a b w⟩ i - g.realised ⟨shape, y⟩ i| ≤ w * g.spread := by
  subst hs
  have hb : b.strategy < g.shape.count a.player := hab ▸ b.inRange
  rw [realised_eq g _ hi, realised_eq g _ hi, Profile.lotteries_transfer hab]
  have h := abs_expectation_set_moved_le hn.areDraws hi hw a.inRange hb
    (Profile.mean_lottery_transfer (y := y) hab)
  rwa [Profile.set_lotteries] at h

/-- **One grid step** changes a gain by no more than twice the moved weight's share of
the spread. -/
theorem abs_gain_transfer_le (hs : shape = g.shape) (hn : Profile.IsNormalized ⟨shape, y⟩)
    (hw : 0 ≤ w) (hab : b.player = a.player) (l : Label shape) :
    |g.gain ⟨shape, y.transfer a b w⟩ l - g.gain ⟨shape, y⟩ l| ≤ 2 * (w * g.spread) := by
  have hl := l.player_lt
  have hpayoff := abs_le.mp (abs_strategyPayoff_transfer_le hs hn hw hab l)
  have hrealised := abs_le.mp (abs_realised_transfer_le hs hn hw hab hl)
  unfold gain
  exact abs_le.mpr ⟨by linarith [hpayoff.1, hrealised.2], by linarith [hpayoff.2, hrealised.1]⟩

end Game

end

/-! ## §2. From vertex to vertex -/

section

variable {g : Game} {G : Grid shape} {c : Cell shape} {f : Heights shape → Label shape}
  {m n : Nat} {regret : Rat}

namespace Cell

/-- The next vertex lies one grid step further. -/
theorem IsValid.exists_transfer (hv : c.IsValid G.room) (hm : m < c.path.length) :
    ∃ a b, b.player = a.player
      ∧ G.point (c.vertex G.room (m + 1)) = (G.point (c.vertex G.room m)).transfer a b G.mesh := by
  obtain ⟨p, hs⟩ := hv.exists_isSource c.path[m]
  have hlen : (c.path.take m).length = m := List.length_take_of_le hm.le
  have hp : c.path = c.path.take m ++ c.path[m] :: c.path.drop (m + 1) := by
    rw [List.cons_getElem_drop_succ, List.take_append_drop]
  have hstep : c.vertex G.room ((c.path.take m).length + 1) = _ := vertex_append_cons hp
  rw [hlen] at hstep
  exact ⟨p, c.path[m], hs.player_eq, by rw [hstep, Raster.point_stepOnto hs]⟩

/-- Every grid step adds its share. -/
theorem IsValid.abs_gain_sub_le (hv : c.IsValid G.room) (hs : shape = g.shape) (hmn : m ≤ n)
    (hn : n ≤ c.path.length) (l : Label shape) :
    |g.gain ⟨shape, G.point (c.vertex G.room n)⟩ l
      - g.gain ⟨shape, G.point (c.vertex G.room m)⟩ l|
      ≤ ((n - m : Nat) : Rat) * (2 * (G.mesh * g.spread)) := by
  induction n, hmn using Nat.le_induction with
  | base => simp
  | succ n hmn ih =>
    obtain ⟨a, b, hab, hstep⟩ := hv.exists_transfer (Nat.lt_of_succ_le hn)
    have hone := Game.abs_gain_transfer_le hs (Grid.isNormalized_vertex hv n) G.mesh_pos.le hab l
    rw [← hstep] at hone
    have hrest := ih (by omega)
    have htri := abs_sub_le (g.gain ⟨shape, G.point (c.vertex G.room (n + 1))⟩ l)
      (g.gain ⟨shape, G.point (c.vertex G.room n)⟩ l)
      (g.gain ⟨shape, G.point (c.vertex G.room m)⟩ l)
    rw [Nat.succ_sub hmn]
    push_cast
    linarith

/-- **Gains at two vertices of a cell** differ by no more than the spread of the payoffs
times the mesh, twice for each strategy. -/
theorem IsValid.gain_le (hv : c.IsValid G.room) (hs : shape = g.shape)
    (hm : m ≤ c.path.length) (hn : n ≤ c.path.length) (l : Label shape) :
    g.gain ⟨shape, G.point (c.vertex G.room n)⟩ l
      ≤ g.gain ⟨shape, G.point (c.vertex G.room m)⟩ l + 2 * g.spread * G.mesh * shape.size := by
  -- some player has two payoffs, so the spread is not negative
  have hspread : 0 ≤ g.spread := by
    have hi := l.player_lt
    subst hs
    exact g.spread_nonneg (Grid.isNormalized_vertex hv m).areDraws hi
  have hshare : 0 ≤ 2 * (G.mesh * g.spread) :=
    mul_nonneg zero_le_two (mul_nonneg G.mesh_pos.le hspread)
  -- a path has no more entries than there are strategies
  have hsize : ∀ k : Nat, k ≤ c.path.length →
      (k : Rat) * (2 * (G.mesh * g.spread)) ≤ 2 * g.spread * G.mesh * shape.size := by
    intro k hk
    have hks : (k : Rat) ≤ shape.size := by exact_mod_cast hk.trans hv.length_path_le
    calc (k : Rat) * (2 * (G.mesh * g.spread)) ≤ shape.size * (2 * (G.mesh * g.spread)) :=
          mul_le_mul_of_nonneg_right hks hshare
      _ = 2 * g.spread * G.mesh * shape.size := by ring
  rcases Nat.le_total m n with hmn | hnm
  · have h := (abs_le.mp (hv.abs_gain_sub_le hs hmn hn l)).2
    have := hsize (n - m) (by omega)
    linarith
  · have h := (abs_le.mp (hv.abs_gain_sub_le hs hnm hm l)).1
    have := hsize (m - n) (by omega)
    linarith

/-! ## §3. Finished walks -/

/-- **The regret where a walk is finished.**  If the leash holds nothing back, the
incumbent's regret is no more than gains differ across the cell. -/
theorem IsFinal.regret_le (h : c.IsFinal G.room f) (hv : c.IsValid G.room)
    (hs : shape = g.shape) (hroom : ∀ l, G.room l = G.units l)
    (hseen : ∀ y ∈ c.vertices G.room, G.IsSeen g f regret y) :
    regret ≤ 2 * g.spread * G.mesh * shape.size := by
  obtain ⟨m, hm, l, hl⟩ := h
  have hi := l.player_lt
  have hn := Grid.isNormalized_vertex hv m
  obtain ⟨hnonneg, hsum⟩ := (Profile.isNormalized_iff _).mp hn
  have hone : ∑ k with k.player = l.player, (G.point (c.vertex G.room m)).get k = 1 :=
    hsum l.player hi
  have hzero : ∑ k with k.player = l.player, (G.point (c.vertex G.room m)).get k
      * g.gain ⟨shape, G.point (c.vertex G.room m)⟩ k = 0 := g.sum_mul_gain hn hi
  generalize hbound : 2 * g.spread * G.mesh * shape.size = bound
  have hterm : ∀ k : Label shape, k.player = l.player →
      (G.point (c.vertex G.room m)).get k * regret ≤ (G.point (c.vertex G.room m)).get k
        * (g.gain ⟨shape, G.point (c.vertex G.room m)⟩ k + bound) := by
    intro k hk
    rcases hl k hk with hused | ⟨y, hy, rfl⟩
    · -- what is used up has no weight
      have hw : (G.point (c.vertex G.room m)).get k = 0 := by
        rw [Grid.get_point, Grid.weight, hroom, hused]
        simp
      rw [hw, zero_mul, zero_mul]
    · -- what is a label gains no less at the vertex it labels
      obtain ⟨n, hn, rfl⟩ := exists_of_mem_vertices hy
      have hgain := hv.gain_le (g := g) hs hm hn (f (c.vertex G.room n))
      rw [hbound] at hgain
      exact mul_le_mul_of_nonneg_left ((hseen _ hy).trans hgain) (hnonneg _)
  calc regret
      = ∑ k with k.player = l.player, (G.point (c.vertex G.room m)).get k * regret := by
        rw [← Finset.sum_mul, hone, one_mul]
    _ ≤ ∑ k with k.player = l.player, (G.point (c.vertex G.room m)).get k
          * (g.gain ⟨shape, G.point (c.vertex G.room m)⟩ k + bound) :=
        Finset.sum_le_sum fun k hk => hterm k (Finset.mem_filter.mp hk).2
    _ = bound := by
        simp only [mul_add]
        rw [Finset.sum_add_distrib, hzero, ← Finset.sum_mul, hone, zero_add, one_mul]

end Cell

/-- A leash as long as all weights of a player together holds nothing back. -/
theorem Grid.room_eq_units (hleash : 1 ≤ (G.leash : Rat) * G.mesh) (l : Label shape) :
    G.room l = G.units l := by
  have hi := l.player_lt
  have hone : (G.units l : Rat) ≤ ∑ k with k.player = l.player, (G.units k : Rat) :=
    Finset.single_le_sum (fun k _ => Nat.cast_nonneg _)
      (Finset.mem_filter.mpr ⟨Finset.mem_univ l, rfl⟩)
  have hmesh : G.mesh * (G.units l : Rat) ≤ 1 :=
    (mul_le_mul_of_nonneg_left hone G.mesh_pos.le).trans_eq (G.sum_units l.player hi)
  have hle : G.mesh * (G.units l : Rat) ≤ G.mesh * (G.leash : Rat) := by
    rw [mul_comm G.mesh (G.leash : Rat)]
    exact hmesh.trans hleash
  have hunits : G.units l ≤ G.leash := by exact_mod_cast le_of_mul_le_mul_left hle G.mesh_pos
  exact Nat.min_eq_left hunits

end

/-- **A fully labelled pass is near an equilibrium.**  The regret of its incumbent is no
more than twice the largest difference between two payoffs of one player, which is what the
spread is (`Game.isGreatest_spread`), times the mesh times the number of all strategies. -/
theorem regret_le_of_fullyLabeled {g : Game} {reference : Profile} {mesh : Rat}
    {leashLength : Nat} (h : IsPassStart g reference mesh leashLength)
    (hleash : 1 ≤ (leashLength : Rat) * mesh) {incumbent : Incumbent} {limits : PassLimits}
    {clock : Clock} {o : PassOutcome}
    (ho : runPass g reference mesh leashLength incumbent limits clock = .ok o)
    (hend : o.ending = .fullyLabeled) :
    o.incumbent.regret ≤ 2 * g.spread * mesh * g.shape.size := by
  obtain ⟨G, f, c, rfl, rfl, hv, hf, hseen⟩ := h.exists_isFinal ho hend
  rw [← h.shape_eq]
  exact hf.regret_le hv h.shape_eq (Grid.room_eq_units hleash) hseen

theorem regret_le_of_fullyLabeled_heads :
    ∃ o, runPass ClassicGame.matchingPennies.game.toGame heads (1 / 9) 9 ⟨2, heads, 0⟩ .none
        .stopped = .ok o
      ∧ o.incumbent.regret = 10 / 81
      ∧ o.incumbent.regret ≤ 2 * ClassicGame.matchingPennies.game.toGame.spread * (1 / 9)
        * ClassicGame.matchingPennies.game.toGame.shape.size := by
  have hrun : runPass ClassicGame.matchingPennies.game.toGame heads (1 / 9) 9 ⟨2, heads, 0⟩ .none
      .stopped = .ok ⟨.fullyLabeled, 18, 10 / 81, ⟨[2, 2], ⟨#v[5 / 9, 4 / 9, 4 / 9, 5 / 9]⟩⟩, 18⟩ := by
    decide +kernel
  exact ⟨_, hrun, rfl, regret_le_of_fullyLabeled isPassStart_heads (by norm_num) hrun rfl⟩

end SimplicialNash
