/-
  SimplicialNash.Proofs.Refinement.Dominance
  ──────────────────────────────────────────
  **How much weight a dominant strategy has after a pass.**

  If a strategy pays its player more than each other one by some margin, the weight that
  is on the others, times the margin, is no more than the regret of the report
  (`Solver.mul_le_regret_of_stages`).  On the grid of the pass this leaves no weight on
  them as soon as the regret is below the margin times the mesh.

  That is as far as a report goes in general.  A pass follows the largest gain of all
  players and reports the profile in which the largest gain is smallest, so where the
  other players have much to gain, the first pass may report a profile in which the
  dominant strategy is not played at all (`Solver.not_forall_weight_eq_one`).  If no other
  player gains as much as the margin times the mesh by changing strategies at a pure
  profile, then while there is weight on dominated strategies only the dominant strategy
  is a label, and the walk is not finished before it has come to a profile without such
  weight (`IsPassStart.regret_lt_of_paysMoreBy`).

  Main statement: `Solver.weight_of_isStrictlyDominant`.
-/
import SimplicialNash.Proofs.Dominance
import SimplicialNash.Proofs.Refinement.Best
import SimplicialNash.Proofs.Refinement.Convergence
import SimplicialNash.Start

namespace SimplicialNash

/-! ## §1. A pass -/

/-- **If all labels of a finished walk are one**, that label has all the weight of its
player at some vertex. -/
theorem Cell.IsFinal.exists_weight_eq_one {shape : Shape} {G : Grid shape} {c : Cell shape}
    {f : Heights shape → Label shape} {d : Label shape} (h : c.IsFinal G.room f)
    (hv : c.IsValid G.room) (hroom : ∀ l, G.room l = G.units l)
    (hlabel : ∀ y ∈ c.vertices G.room, f y = d) :
    ∃ y ∈ c.vertices G.room, (G.point y).get d = 1 := by
  obtain ⟨m, -, l, hl⟩ := h
  refine ⟨_, vertex_mem_vertices m, ?_⟩
  have hi := l.player_lt
  obtain ⟨-, hsum⟩ := (Profile.isNormalized_iff _).mp (Grid.isNormalized_vertex hv m)
  have htotal : ∑ k with k.player = l.player, (G.point (c.vertex G.room m)).get k = 1 :=
    hsum l.player hi
  -- the other strategies of the player in question are used up
  have hzero : ∀ k : Label shape, k.player = l.player → k ≠ d →
      (G.point (c.vertex G.room m)).get k = 0 := by
    intro k hk hne
    rcases hl k hk with hused | ⟨y, hy, rfl⟩
    · rw [Grid.get_point, Grid.weight, hroom, hused]
      simp
    · exact absurd (hlabel y hy) hne
  by_cases hd : d.player = l.player
  · have hmem : d ∈ ({k | k.player = l.player} : Finset (Label shape)) :=
      Finset.mem_filter.mpr ⟨Finset.mem_univ d, hd⟩
    rwa [Finset.sum_eq_single_of_mem d hmem fun k hk => hzero k (Finset.mem_filter.mp hk).2]
      at htotal
  · -- otherwise the player would have no weight at all
    have hnone : ∑ k with k.player = l.player, (G.point (c.vertex G.room m)).get k = 0 := by
      refine Finset.sum_eq_zero fun k hk => ?_
      have hk := (Finset.mem_filter.mp hk).2
      exact hzero k hk fun e => hd (e ▸ hk)
    exact absurd (hnone.symm.trans htotal) zero_ne_one

/-- **Dominated strategies are left behind.**  If no other player ever gains as much as the
margin times the mesh by changing strategies at a pure profile, then the regret after a
pass is below the margin times the mesh. -/
theorem IsPassStart.regret_lt_of_paysMoreBy {g : Game} {reference : Profile} {mesh : Rat}
    {leashLength : Nat} (h : IsPassStart g reference mesh leashLength)
    (hleash : 1 ≤ (leashLength : Rat) * mesh) {incumbent : Incumbent} {limits : PassLimits}
    {clock : Clock} {o : PassOutcome}
    (ho : runPass g reference mesh leashLength incumbent limits clock = .ok o)
    (hend : o.ending = .fullyLabeled) {player strategy : Nat} {margin bound : Rat}
    (hstrategy : strategy < g.shape.count player)
    (hpays : g.PaysMoreBy player strategy margin) (hmargin : 0 < margin)
    (hothers : ∀ other < g.shape.length, other ≠ player → g.GainsAtMost other bound)
    (hbound : bound < margin * mesh) : o.incumbent.regret < margin * mesh := by
  obtain ⟨G, f, c, rfl, rfl, hf, hv, hfinal, hseen⟩ := h.exists_isFinal_of_isLabelling ho hend
  by_contra hlarge
  rw [not_lt] at hlarge
  let d : Label reference.shape := ⟨player, strategy, h.shape_eq ▸ hstrategy⟩
  -- all labels of the cell are the dominant strategy, because the other gains are too small
  have hlabel : ∀ y ∈ c.vertices G.room, f y = d := by
    intro y hy
    obtain ⟨n, -, rfl⟩ := Cell.exists_of_mem_vertices hy
    have hn := Grid.isNormalized_vertex hv n
    obtain ⟨dev, hdev, hlabel⟩ := hf (c.vertex G.room n)
    have hplayer : (f (c.vertex G.room n)).player = player := by
      by_contra hne
      have hi := (f (c.vertex G.room n)).player_lt
      have hgain := Game.GainsAtMost.gain_le (p := ⟨_, G.point (c.vertex G.room n)⟩)
        (hothers _ (h.shape_eq ▸ hi) hne) h.shape_eq hn
      have hregret := hseen _ hy
      unfold Raster.IsSeen at hregret
      linarith
    rw [← hlabel] at hplayer ⊢
    exact Game.PaysMoreBy.label_eq (p := ⟨_, G.point (c.vertex G.room n)⟩) (l := d) hpays
      hmargin h.shape_eq hn hdev hplayer
  -- but where it has all the weight, its player cannot gain
  obtain ⟨y, hy, hweight⟩ := hfinal.exists_weight_eq_one hv (Grid.room_eq_units hleash) hlabel
  obtain ⟨n, -, rfl⟩ := Cell.exists_of_mem_vertices hy
  have hgain := g.gain_eq_zero (Grid.isNormalized_vertex hv n) hweight
  have hregret := hseen _ hy
  unfold Raster.IsSeen at hregret
  rw [hlabel _ hy, hgain] at hregret
  have hpos := mul_pos hmargin G.mesh_pos
  linarith

/-! ## §2. Pure starts -/

/-- **A pure start** exists where every player has a strategy.  A solve may begin there,
and all its weights are integers. -/
theorem exists_pureStart {g : Game} (hne : g.shape ≠ []) (h0 : 0 ∉ g.shape) :
    ∃ start, pureStart g = .ok start ∧ IsSolveStart g start ∧ start.denominatorLcm = 1 := by
  refine ⟨_, if_neg h0, ⟨hne, rfl, (Profile.isNormalized_iff _).mpr ⟨fun l => ?_, fun i hi => ?_⟩⟩,
    ?_⟩
  · dsimp only
    rw [StrategyTable.get_tabulate]
    split_ifs
    · exact zero_le_one
    · exact le_refl 0
  · dsimp only at hi ⊢
    -- the first strategy has all the weight
    have hcount : 0 < g.shape.count i := Shape.count_pos h0 hi
    have hmem : (⟨i, 0, hcount⟩ : Label g.shape) ∈ ({k | k.player = i} : Finset _) :=
      Finset.mem_filter.mpr ⟨Finset.mem_univ _, rfl⟩
    simp only [StrategyTable.get_tabulate]
    rw [Finset.sum_eq_single_of_mem _ hmem, if_pos rfl]
    intro k hk hother
    refine if_neg fun hzero => hother (Label.ext (Finset.mem_filter.mp hk).2 hzero)
  · refine Nat.dvd_one.mp ((Profile.denominatorLcm_dvd_iff _ _).mpr fun w hw => ?_)
    obtain ⟨l, rfl⟩ := StrategyTable.mem_toList.mp hw
    rw [StrategyTable.get_tabulate]
    split_ifs <;> exact dvd_refl 1

/-! ## §3. Solves -/

namespace Solver

variable {s : Solver} {g : Game} {settings : Settings} {clock : Clock} {start : Profile}
  {keepGoing : PassReport → Bool} {limit strategy player : Nat} {margin : Rat}
  {done rest : List Stage} {stage : Stage}

/-- **The weight of a dominant strategy** in the report of a pass: the margin for all other
weight is no more than the regret, and there is no other weight if the regret is below the
margin times the mesh. -/
theorem mul_le_regret_of_stages (hs : IsOf g settings s) (hstart : IsSolveStart g start)
    (h : s.stages start clock keepGoing limit = done ++ stage :: rest)
    (hstrategy : strategy < g.shape.count player)
    (hpays : g.PaysMoreBy player strategy margin) (hmargin : 0 < margin) :
    margin * (1 - stage.report.profile.weight player strategy) ≤ stage.report.regret
      ∧ (stage.report.regret < margin * stage.report.mesh →
        stage.report.profile.weight player strategy = 1) := by
  obtain ⟨rfl, -⟩ := id hs
  obtain ⟨-, hafter⟩ := isOnCourse_of_stages hs hstart h
  obtain ⟨-, hmesh, hregret, hprofile⟩ := report_of_stages h
  obtain ⟨-, hleast⟩ := isFirstLeast_of_stages h
  obtain ⟨d, hd, hexcess⟩ := Game.exists_of_excess_eq_ok hleast.excess_eq
  rw [hmesh, hregret, hprofile]
  have hshape := hafter.shape_eq
  let l : Label stage.after.incumbent.profile.shape := ⟨player, strategy, hshape ▸ hstrategy⟩
  have hweight : stage.after.incumbent.profile.weight player strategy
      = stage.after.incumbent.profile.weights.get l := Profile.weight_eq _ l
  have hle : margin * (1 - stage.after.incumbent.profile.weights.get l)
      ≤ stage.after.incumbent.regret := by
    rw [← hexcess]
    exact (Game.PaysMoreBy.mul_le_gain (l := l) hpays hshape hafter.isNormalized).trans
      (Game.gain_le_excess hd l)
  rw [hweight]
  refine ⟨hle, fun hlt => ?_⟩
  have hpos : 0 < stage.after.mesh := by
    rw [← hmesh]
    exact (isPassStart_of_stages hs hstart h).mesh_pos
  refine hafter.isNormalized.weight_eq_one hpos hafter.isOnGrid l ?_
  exact lt_of_mul_lt_mul_left (hle.trans_lt hlt) hmargin.le

/-- A solve has a first pass. -/
theorem exists_stages_eq_cons (hs : IsOf g settings s) (hstart : IsSolveStart g start)
    (clock : Clock) (keepGoing : PassReport → Bool) :
    ∃ first rest, s.stages start clock keepGoing maxPasses = first :: rest := by
  have hstart' : IsSolveStart s.game start := hs.game_eq ▸ hstart
  obtain ⟨progress, hbegin⟩ := exists_begin hstart'
  obtain ⟨r, next, hpass, -⟩ := (isOnCourse_begin hstart' hbegin).exists_nextPass hs hstart clock
  have hmax : maxPasses = (maxPasses - 1) + 1 := rfl
  rw [stages, hbegin, hmax]
  exact ⟨_, _, stagesFrom_succ hpass _⟩

/-- **The first pass of a solve** leaves no weight on dominated strategies, if no other
player ever gains as much as the margin times the mesh at a pure profile. -/
theorem weight_eq_one_of_gainsAtMost (hs : IsOf g settings s) (hstart : IsSolveStart g start)
    (hlimits : s.limits = .none)
    (h : s.stages start clock keepGoing limit = done ++ stage :: rest)
    (hleash : 1 ≤ (s.settings.leashLength.toNat : Rat) * stage.report.mesh)
    (hstrategy : strategy < g.shape.count player)
    (hpays : g.PaysMoreBy player strategy margin) (hmargin : 0 < margin) {bound : Rat}
    (hothers : ∀ other < g.shape.length, other ≠ player → g.GainsAtMost other bound)
    (hbound : bound < margin * stage.report.mesh) :
    stage.report.profile.weight player strategy = 1 := by
  refine (mul_le_regret_of_stages hs hstart h hstrategy hpays hmargin).2 ?_
  have hpass := nextPass_of_stages h
  have hend := (isOnCourse_of_stages hs hstart h).1.ending_eq hs hstart hlimits hpass
  have hbegin := isPassStart_of_stages hs hstart h
  have hmesh := mesh_of_nextPass hpass
  obtain ⟨o, ho, hafter, hreport⟩ := nextPass_cases hpass
  have hending : o.ending = .fullyLabeled := by
    rw [← hend, hreport]
    rfl
  have hregret : stage.report.regret = o.incumbent.regret := by
    rw [hreport, hafter]
    rfl
  rw [← hmesh] at ho
  obtain ⟨rfl, -⟩ := hs
  rw [hregret]
  exact hbegin.regret_lt_of_paysMoreBy hleash ho hending hstrategy hpays hmargin hothers hbound

/-- **Dominant strategies.**  From the pure start and with the default settings, the first
pass of a solve walks at the mesh `1 / 2` until it is fully labelled.  If the first player
has a strictly dominant strategy, there is a margin by which it pays more than each other
one.  In the report of every pass the margin for the weight on other strategies is no more
than the regret, so that there is no such weight if the regret is below the margin times
the mesh; and there is none in the first report, if no other player ever gains half the
margin by changing strategies at a pure profile. -/
theorem weight_of_isStrictlyDominant (h0 : 0 ∉ g.shape)
    (hdominant : g.IsStrictlyDominant 0 strategy) (clock : Clock)
    (keepGoing : PassReport → Bool) :
    ∃ s start first rest, ofGame g .default = .ok s ∧ pureStart g = .ok start
      ∧ s.stages start clock keepGoing maxPasses = first :: rest
      ∧ (∀ reports a, s.solve start clock keepGoing = .ok (reports, a) →
        reports = (first :: rest).map Stage.report)
      ∧ first.report.mesh = 1 / 2 ∧ first.report.ending = .fullyLabeled
      ∧ (∃ margin, 0 < margin ∧ g.PaysMoreBy 0 strategy margin)
      ∧ ∀ margin, 0 < margin → g.PaysMoreBy 0 strategy margin →
        (∀ stage ∈ first :: rest,
          margin * (1 - stage.report.profile.weight 0 strategy) ≤ stage.report.regret
            ∧ (stage.report.regret < margin * stage.report.mesh →
              stage.report.profile.weight 0 strategy = 1))
        ∧ ∀ bound, 2 * bound < margin →
          (∀ other < g.shape.length, other ≠ 0 → g.GainsAtMost other bound) →
          first.report.profile.weight 0 strategy = 1 := by
  have hof := isOf_of_ofGame (ofGame_default g)
  obtain ⟨hstrategy, -⟩ := id hdominant
  have hne : g.shape ≠ [] := fun hnil => by
    rw [hnil] at hstrategy
    exact absurd hstrategy (Nat.not_lt_zero _)
  obtain ⟨start, hpure, hstart, hlcm⟩ := exists_pureStart hne h0
  obtain ⟨first, rest, hstages⟩ := exists_stages_eq_cons hof hstart clock keepGoing
  have hlimits : (defaultSolver g).limits = .none := limits_eq_none rfl rfl
  have hfirst : (defaultSolver g).stages start clock keepGoing maxPasses = [] ++ first :: rest :=
    hstages
  have hpass := nextPass_of_stages hfirst
  have hbegin := (isOnCourse_of_stages hof hstart hfirst).1
  have hmesh : first.report.mesh = 1 / 2 := by
    rw [mesh_of_nextPass hpass, hbegin.nextMesh_eq, hlcm]
    show (1 : Rat) / ((1 : Nat) * (Settings.default.gridResize.toNat : Rat) ^ 1) = 1 / 2
    decide +kernel
  refine ⟨_, start, first, rest, ofGame_default g, hpure, hstages, ?_, hmesh,
    hbegin.ending_eq hof hstart hlimits hpass, hdominant.exists_margin, ?_⟩
  · intro reports a hsolve
    rw [reports_eq_map hsolve, hstages]
  · intro margin hmargin hpays
    constructor
    · intro stage hstage
      obtain ⟨done, others, hsplit⟩ := List.append_of_mem hstage
      exact mul_le_regret_of_stages hof hstart (hstages.trans hsplit) hstrategy hpays hmargin
    · intro bound hbound hothers
      refine weight_eq_one_of_gainsAtMost hof hstart hlimits hfirst ?_ hstrategy
        hpays hmargin hothers ?_
      · rw [hmesh]
        show (1 : Rat) ≤ (Settings.default.leashLength.toNat : Rat) * (1 / 2)
        decide +kernel
      · rw [hmesh]
        linarith

/-- The second row pays four, the first one nothing; Column wants to play the same number as
Row. -/
def plainLead : TableGame where
  title := "Plain lead"
  players := [.numbered "Player 1" 2, .numbered "Player 2" 2]
  strides := [1, 2]
  payoffs := #[[0, 1], [4, 0], [0, 0], [4, 1]]
  players_ne_nil := by decide
  strategies_ne_nil := by decide
  strides_eq := by decide
  size_payoffs := by decide
  length_payoffs := by decide

theorem weight_of_isStrictlyDominant_plainLead :
    plainLead.toGame.IsStrictlyDominant 0 1
      ∧ ∃ s start first rest, ofGame plainLead.toGame .default = .ok s
        ∧ pureStart plainLead.toGame = .ok start
        ∧ s.stages start .stopped (fun _ => true) maxPasses = first :: rest
        ∧ first.report.profile.weight 0 1 = 1 := by
  have hdominant : plainLead.toGame.IsStrictlyDominant 0 1 := by decide +kernel
  obtain ⟨s, start, first, rest, hs, hstart, hstages, -, -, -, -, hmargin⟩ :=
    weight_of_isStrictlyDominant (by decide) hdominant .stopped fun _ => true
  -- Column never gains more than one point, and half the margin is two
  have hothers : ∀ other < plainLead.toGame.shape.length, other ≠ 0 →
      plainLead.toGame.GainsAtMost other 1 := by
    decide +kernel
  exact ⟨hdominant, s, start, first, rest, hs, hstart, hstages,
    (hmargin 4 (by norm_num) (by decide +kernel)).2 1 (by norm_num) hothers⟩

/-- The second row pays one more than the first, but Column has much more to gain from
leaving the first column. -/
def distractedLead : TableGame where
  title := "Distracted lead"
  players := [.numbered "Player 1" 2, .numbered "Player 2" 2]
  strides := [1, 2]
  payoffs := #[[0, 0], [1, 30], [0, 10], [1, 0]]
  players_ne_nil := by decide
  strategies_ne_nil := by decide
  strides_eq := by decide
  size_payoffs := by decide
  length_payoffs := by decide

/-- **A dominant strategy may have no weight** in the report of the first pass. -/
theorem not_forall_weight_eq_one :
    distractedLead.toGame.IsStrictlyDominant 0 1
      ∧ ∃ s start reports a, ofGame distractedLead.toGame .default = .ok s
        ∧ pureStart distractedLead.toGame = .ok start
        ∧ s.solve start .stopped (fun _ => true) = .ok (reports, a)
        ∧ ∃ first ∈ reports.head?, first.profile.weight 0 1 = 0 := by
  have hstart : pureStart distractedLead.toGame = .ok heads := by decide +kernel
  have hsolve : (defaultSolver distractedLead.toGame).solve heads .stopped (fun _ => true)
      = .ok ([⟨1, 1 / 2, 1, ⟨[2, 2], ⟨#v[1, 0, 0, 1]⟩⟩, 4, .fullyLabeled⟩,
          ⟨2, 1 / 4, 0, ⟨[2, 2], ⟨#v[0, 1, 1, 0]⟩⟩, 14, .fullyLabeled⟩],
        ⟨⟨[2, 2], ⟨#v[0, 1, 1, 0]⟩⟩, 0, 2, 18, 1 / 4, .converged⟩) := by
    decide +kernel
  exact ⟨by decide +kernel, _, _, _, _, ofGame_default _, hstart, hsolve, _, rfl,
    by decide +kernel⟩

end Solver

end SimplicialNash
