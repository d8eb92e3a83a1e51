/-
  SimplicialNash.Proofs.Walk.Rescaling
  ────────────────────────────────────
  **A pass does not see the scale of the payoffs.**

  Between a game and a rescaled one, a pass goes the same way: what it does next depends
  on labels and on comparisons of excesses, and neither depends on the scale
  (`Incumbent.label_scale`, `Pass.step_scale`).  So one run is the image of the other
  under `Pass.scale`, which multiplies the regret and changes nothing else
  (`Pass.simulation_scale`).

  What makes the labels agree is that every profile on the way has the totals of the
  start, whether or not it is on a grid; so the mesh may be any number.

  Main statement: `runPass_rescaled`.
-/
import SimplicialNash.Proofs.Rescaling
import SimplicialNash.Proofs.Walk.Simulation

namespace SimplicialNash

/-! ## §1. Incumbents -/

namespace Incumbent

variable {a : Rat} {c : Nat → List Nat → Rat} {g g' : Game} {p : Profile}

/-- The regret is multiplied. -/
def scale (a : Rat) (inc : Incumbent) : Incumbent := { inc with regret := a * inc.regret }

@[simp] theorem regret_scale (a : Rat) (inc : Incumbent) :
    (inc.scale a).regret = a * inc.regret := rfl

/-- Which excess is smaller does not depend on the scale. -/
theorem observe_scale (ha : 0 < a) (inc : Incumbent) (p : Profile) (excess : Rat) :
    (inc.scale a).observe p (a * excess) = (inc.observe p excess).scale a := by
  unfold observe
  rw [regret_scale, if_congr (mul_lt_mul_iff_right₀ ha) rfl rfl]
  split
  · rfl
  · rfl

/-- **A profile is labelled in both games.** -/
theorem label_scale (h : g.IsRescaled a c g') (hs : p.shape = g.shape) (hb : p.IsBalanced)
    (inc : Incumbent) :
    (inc.scale a).label g' p
      = (inc.label g p).map fun labelled => (labelled.1.scale a, labelled.2.scale a) := by
  unfold label
  rw [h.bestDeviation_eq hs hb]
  cases g.bestDeviation p with
  | error fault => rfl
  | ok d =>
    show Except.ok (d.scale a, (inc.scale a).observe p (a * d.excess)) = _
    rw [observe_scale h.scale_pos]
    rfl

/-- The incumbents before any profile is labelled. -/
theorem ofStart_scale (h : g.IsRescaled a c g') (hs : p.shape = g.shape) (hb : p.IsBalanced) :
    ofStart g' p = (ofStart g p).map (scale a) := by
  unfold ofStart
  rw [h.bestDeviation_eq hs hb]
  cases g.bestDeviation p <;> rfl

end Incumbent

/-! ## §2. Runs side by side -/

/-- The regret is multiplied. -/
def PassOutcome.scale (a : Rat) (o : PassOutcome) : PassOutcome :=
  { o with incumbent := o.incumbent.scale a }

namespace Pass

variable {shape : Shape} {a : Rat} {c : Nat → List Nat → Rat} {g g' : Game}
  {limits : PassLimits} {clock : Clock} {r : Point shape} {elapsed fuel : Nat}
  {pass next : Pass shape}

/-- The regret is multiplied. -/
def scale (a : Rat) (pass : Pass shape) : Pass shape :=
  { pass with incumbent := pass.incumbent.scale a }

/-- A vertex with the totals of a balanced one is balanced. -/
theorem isBalanced_profile (hlevel : pass.simplex.IsLevel r)
    (hr : Profile.IsBalanced ⟨shape, r⟩) : pass.profile.IsBalanced :=
  fun i hi => (hlevel.rowTotal_current i).trans (hr i hi)

theorem evaluate_scale (h : g.IsRescaled a c g') (hs : shape = g.shape)
    (hb : pass.profile.IsBalanced) :
    (pass.scale a).evaluate g' = (pass.evaluate g).map (scale a) := by
  unfold evaluate
  rw [show (pass.scale a).incumbent.label g' (pass.scale a).profile = _ from
    Incumbent.label_scale h hs hb pass.incumbent]
  cases pass.incumbent.label g pass.profile with
  | error fault => rfl
  | ok labelled =>
    show (pass.simplex.receive labelled.1.label >>= _)
      = (pass.simplex.receive labelled.1.label >>= _).map _
    cases pass.simplex.receive labelled.1.label <;> rfl

/-- **One move in both games.** -/
theorem step_scale (h : g.IsRescaled a c g') (hs : shape = g.shape)
    (hr : Profile.IsBalanced ⟨shape, r⟩) (hlevel : pass.simplex.IsLevel r) :
    (pass.scale a).step g' limits (clock (pass.scale a).incumbent.evaluations)
      = (pass.step g limits (clock pass.incumbent.evaluations)).map
        (Sum.map (PassOutcome.scale a) (scale a)) := by
  -- as many labels are evaluated, so it is the same time
  show (pass.scale a).step g' limits (clock pass.incumbent.evaluations) = _
  generalize clock pass.incumbent.evaluations = elapsed
  have hevaluate := evaluate_scale h hs (isBalanced_profile hlevel hr)
  by_cases hfin : pass.move = .finish
  · unfold step
    rw [show (pass.scale a).move = pass.move from rfl, hfin]
    rfl
  by_cases hev : pass.move = .evaluate
  · unfold step
    rw [hevaluate, show (pass.scale a).move = pass.move from rfl, hev,
      show (pass.scale a).pivots = pass.pivots from rfl]
    dsimp only
    cases limits.reached? pass.pivots elapsed with
    | some ending => rfl
    | none => cases pass.evaluate g <;> rfl
  · -- the simplex is the same in both games
    have hscaled : (pass.scale a).step g' limits elapsed = (pass.scale a).advance :=
      step_eq_advance hfin hev
    rw [hscaled, step_eq_advance hfin hev]
    show (pass.simplex.step pass.move >>= _) = (pass.simplex.step pass.move >>= _).map _
    cases pass.simplex.step pass.move <;> rfl

/-- **The pass in the rescaled game** is the image of the other, as long as the vertices have
the totals of a balanced start. -/
theorem simulation_scale (h : g.IsRescaled a c g') (hs : shape = g.shape)
    (hr : Profile.IsBalanced ⟨shape, r⟩) (limits : PassLimits) (clock : Clock) :
    Simulation g g' limits clock (fun pass => pass.simplex.IsLevel r) (scale a)
      (PassOutcome.scale a) :=
  ⟨fun hlevel => step_scale h hs hr hlevel, fun hlevel => isLevel_step hlevel, fun _ => rfl⟩

/-- **Runs in both games** have the same end. -/
theorem run_scale (h : g.IsRescaled a c g') (hs : shape = g.shape)
    (hr : Profile.IsBalanced ⟨shape, r⟩) (hlevel : pass.simplex.IsLevel r) (fuel : Nat) :
    (pass.scale a).run g' limits clock fuel
      = (pass.run g limits clock fuel).map (PassOutcome.scale a) :=
  (simulation_scale h hs hr limits clock).run hlevel fuel

/-- **What both runs evaluate.** -/
theorem evaluations_scale (h : g.IsRescaled a c g') (hs : shape = g.shape)
    (hr : Profile.IsBalanced ⟨shape, r⟩) (hlevel : pass.simplex.IsLevel r) (fuel : Nat) :
    (pass.scale a).evaluations g' limits clock fuel
      = (pass.evaluations g limits clock fuel).map (scale a) :=
  (simulation_scale h hs hr limits clock).evaluations hlevel fuel

/-- The vertex that is looked at, and its label. -/
def finding (g : Game) (pass : Pass shape) : Profile × Except Fault (Label shape) :=
  (pass.profile, (g.bestDeviation pass.profile).map Deviation.label)

/-- Both games find the same label at the same vertex. -/
theorem finding_scale (h : g.IsRescaled a c g') (hs : shape = g.shape)
    (hb : pass.profile.IsBalanced) : (pass.scale a).finding g' = pass.finding g := by
  have hlabel : (g'.bestDeviation pass.profile).map Deviation.label
      = (g.bestDeviation pass.profile).map Deviation.label := by
    rw [h.bestDeviation_eq hs hb]
    cases g.bestDeviation pass.profile <;> rfl
  exact congrArg (Prod.mk pass.profile) hlabel

end Pass

/-! ## §3. Whole passes -/

section

variable {a : Rat} {c : Nat → List Nat → Rat} {g g' : Game} {reference : Profile}

/-- **Rescaled payoffs.**  From a normalized profile of a game with players, a pass goes
the same way in a rescaled game, whatever the mesh, the leash and the budget of
evaluations: each pass begins with the incumbent that the start is in its own game, the
two evaluate the same vertices in the same order and find the same labels there, and they
come to the same end, with as many evaluations and the same incumbent profile, or to the
same fault.  The regret is multiplied.  There is no fault if mesh and leash are positive,
whether or not the weights of the profile are multiples of the mesh. -/
theorem runPass_rescaled (h : g.IsRescaled a c g') (hplayers : g.shape ≠ [])
    (hshape : reference.shape = g.shape) (hn : reference.IsNormalized) (mesh : Rat)
    (leashLength : Nat) (maxPivots : Option Nat) (clock clock' : Clock) :
    ∃ inc inc', Incumbent.ofStart g reference = .ok inc ∧ Incumbent.ofStart g' reference = .ok inc'
      ∧ inc' = inc.scale a
      ∧ (passEvaluations g' reference mesh leashLength inc' ⟨maxPivots, none⟩ clock').map
          (Pass.finding g')
        = (passEvaluations g reference mesh leashLength inc ⟨maxPivots, none⟩ clock).map
          (Pass.finding g)
      ∧ (∀ state ∈ passEvaluations g reference mesh leashLength inc ⟨maxPivots, none⟩ clock,
          ∃ l, (state.finding g).2 = .ok l)
      ∧ runPass g' reference mesh leashLength inc' ⟨maxPivots, none⟩ clock'
        = (runPass g reference mesh leashLength inc ⟨maxPivots, none⟩ clock).map
          (PassOutcome.scale a)
      ∧ (0 < mesh → 0 < leashLength →
          ∃ o, runPass g reference mesh leashLength inc ⟨maxPivots, none⟩ clock = .ok o) := by
  have hb := hn.isBalanced
  have hlabelled : ∀ p : Profile, p.shape = reference.shape → ∃ d, g.bestDeviation p = .ok d :=
    fun p hp => Game.exists_bestDeviation (hp.trans hshape) (hp.trans hshape ▸ hplayers)
      (hp ▸ hn.zero_notMem)
  obtain ⟨d, hd⟩ := hlabelled reference rfl
  have hstart : Incumbent.ofStart g reference = .ok ⟨d.excess, reference, 0⟩ := by
    rw [Incumbent.ofStart, hd]
    rfl
  generalize (⟨d.excess, reference, 0⟩ : Incumbent) = inc at hstart
  -- the first state of one pass is that of the other, with the regret multiplied
  have hlevel : (Pass.start reference.weights mesh leashLength inc).simplex.IsLevel
      reference.weights := Simplex.IsLevel.start _ _ _
  refine ⟨inc, inc.scale a, hstart, ?_, rfl, ?_, ?_, ?_, ?_⟩
  · rw [Incumbent.ofStart_scale h hshape hb, hstart]
    rfl
  · rw [passEvaluations_congr rfl g' reference mesh leashLength _ clock' clock]
    show ((Pass.start reference.weights mesh leashLength inc).scale a |>.evaluations g' _ _ _).map _
      = ((Pass.start reference.weights mesh leashLength inc).evaluations g _ _ _).map _
    rw [Pass.evaluations_scale h hshape hb hlevel, List.map_map]
    refine List.map_congr_left fun state hstate => Pass.finding_scale h hshape ?_
    have htrace := (List.mem_filter.mp hstate).1
    exact Pass.isBalanced_profile (Pass.isLevel_of_mem_trace hlevel htrace) hb
  · intro state _
    obtain ⟨e, he⟩ := hlabelled state.profile rfl
    exact ⟨e.label, by rw [Pass.finding, he]; rfl⟩
  · rw [runPass_congr rfl g' reference mesh leashLength _ clock' clock]
    exact Pass.run_scale h hshape hb hlevel _
  · exact fun hmesh hleash => exists_runPass_of_isNormalized hplayers hshape hn hmesh hleash inc
      ⟨maxPivots, none⟩ clock

theorem runPass_rescaled_heads :
    ∃ o, runPass ClassicGame.matchingPennies.game.toGame heads (1 / 9) 9 ⟨2, heads, 0⟩
        ⟨some 17, none⟩ .stopped = .ok o
      ∧ o.ending = .pivotLimit ∧ o.pivots = 17 ∧ o.incumbent.regret = 10 / 81
      ∧ runPass (ClassicGame.matchingPennies.game.toGame.rescale 3 fun _ s => s.sum) heads (1 / 9) 9
          ⟨6, heads, 0⟩ ⟨some 17, none⟩ .stopped
        = .ok ⟨.pivotLimit, 17, 10 / 27, o.incumbent.profile, o.incumbent.evaluations⟩ := by
  have hscale : (0 : Rat) < 3 := by norm_num
  have hstart : Incumbent.ofStart ClassicGame.matchingPennies.game.toGame heads
      = .ok ⟨2, heads, 0⟩ := by
    decide +kernel
  obtain ⟨inc, inc', hinc, -, rfl, -, -, hrun, hends⟩ := runPass_rescaled
    (Game.isRescaled_rescale hscale (fun _ s => s.sum) ClassicGame.matchingPennies.game.toGame)
    isPassStart_heads.players isPassStart_heads.shape_eq isPassStart_heads.isNormalized (1 / 9) 9
    (some 17) .stopped .stopped
  obtain rfl : ⟨2, heads, 0⟩ = inc := Except.ok.inj (hstart.symm.trans hinc)
  obtain ⟨o, ho⟩ := hends isPassStart_heads.mesh_pos (by decide)
  have hvalues : (runPass ClassicGame.matchingPennies.game.toGame heads (1 / 9) 9 ⟨2, heads, 0⟩
      ⟨some 17, none⟩ .stopped).map (fun o => (o.ending, o.pivots, o.incumbent.regret))
      = .ok (.pivotLimit, 17, 10 / 81) := by
    decide +kernel
  rw [ho] at hvalues
  obtain ⟨hend, hrest⟩ := Prod.mk.inj (Except.ok.inj hvalues)
  obtain ⟨hpivots, hregret⟩ := Prod.mk.inj hrest
  refine ⟨o, ho, hend, hpivots, hregret, ?_⟩
  have h6 : (⟨6, heads, 0⟩ : Incumbent) = Incumbent.scale 3 ⟨2, heads, 0⟩ := by
    decide +kernel
  rw [h6, hrun, ho]
  show Except.ok (PassOutcome.mk o.ending o.pivots
    ⟨3 * o.incumbent.regret, o.incumbent.profile, o.incumbent.evaluations⟩) = _
  rw [hend, hpivots, hregret]
  norm_num

end

end SimplicialNash
