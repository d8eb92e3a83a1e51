/-
  SimplicialNash.Proofs.Walk.Leash
  ────────────────────────────────
  **What the leash does, and when it does nothing.**

  A walk asks whether a weight is used up in four of its moves, and makes the others without
  asking.  Still no weight ever falls more than a leash below that of the reference vertex
  (`sub_le_leash_of_mem_passEvaluations`): no height is negative at a vertex of a valid cell.

  A weight is used up at zero, or at the end of the leash.  When the leash is at least as long
  as every reference weight, the second comes no sooner than the first
  (`Simplex.isExhausted_eq`), and the length of the leash has no say in any move
  (`Simplex.step_withLeash`).  So two passes with such leashes are the same pass.

  Main statements:
    * `sub_le_leash_of_mem_passEvaluations`, for every pass on a grid;
    * `runPass_of_one_le_leash`, for every normalized start, on a grid or not.
-/
import SimplicialNash.Proofs.Walk.Flags
import SimplicialNash.Proofs.Walk.Simulation

namespace SimplicialNash

variable {shape : Shape}

/-! ## §1. How far a weight may fall -/

/-- A weight whose height is not negative is at most a leash below that of the reference
vertex. -/
theorem Raster.reference_sub_point_le (G : Raster shape) {z : Heights shape} {l : Label shape}
    (hz : 0 ≤ z l) : G.reference.get l - (G.point z).get l ≤ G.leash * G.mesh := by
  have hroom : (G.room l : Int) - z l ≤ (G.leash : Int) := by
    have := G.room_le l
    omega
  rw [get_point]
  calc G.reference.get l - (G.reference.get l + G.mesh * ((z l - G.room l : Int) : Rat))
      = ((G.room l - z l : Int) : Rat) * G.mesh := by
        push_cast
        ring
    _ ≤ ((G.leash : Int) : Rat) * G.mesh :=
        mul_le_mul_of_nonneg_right (Int.cast_le.mpr hroom) G.mesh_pos.le
    _ = G.leash * G.mesh := by rw [Int.cast_natCast]

section

variable {g : Game} {reference : Profile} {mesh : Rat} {leashLength : Nat}

/-- **No weight falls more than a leash.**  At every vertex that a pass evaluates, each weight
is at most a full leash below that of the reference vertex. -/
theorem sub_le_leash_of_mem_passEvaluations (h : IsPassStart g reference mesh leashLength)
    {incumbent : Incumbent} {limits : PassLimits} {clock : Clock} {p : Pass reference.shape}
    (hp : p ∈ passEvaluations g reference mesh leashLength incumbent limits clock)
    (l : Label reference.shape) :
    reference.weights.get l - p.profile.weights.get l ≤ leashLength * mesh := by
  obtain ⟨G, f, rfl, rfl, href, -, hpending, -⟩ := h.exists_isPending_of_mem hp
  rw [← href]
  show G.reference.get l - p.simplex.current.get l ≤ _
  rw [hpending.current]
  exact G.reference_sub_point_le (hpending.isOn.valid.vertex_nonneg _ l)

/-- Row is at the end of the leash with two strategies at once. -/
theorem sub_le_leash_of_mem_passEvaluations_evenWithoutBottom :
    ∃ p ∈ passEvaluations ClassicGame.dominantRow.game.toGame evenWithoutBottom (1 / 6) 2
        ⟨3, evenWithoutBottom, 0⟩ .none .stopped,
      p.profile.values = [1 / 6, 1 / 6, 2 / 3, 1 / 2, 1 / 2]
        ∧ ∀ l, evenWithoutBottom.weights.get l - p.profile.weights.get l ≤ (2 : Nat) * (1 / 6) := by
  obtain ⟨p, hp, hvalues⟩ :
      ∃ p ∈ passEvaluations ClassicGame.dominantRow.game.toGame evenWithoutBottom (1 / 6) 2
          ⟨3, evenWithoutBottom, 0⟩ .none .stopped,
        p.profile.values = [1 / 6, 1 / 6, 2 / 3, 1 / 2, 1 / 2] := by
    decide +kernel
  exact ⟨p, hp, hvalues, sub_le_leash_of_mem_passEvaluations isPassStart_evenWithoutBottom hp⟩

end

/-! ## §2. Leashes with slack -/

/-- No weight is greater than a length. -/
def Point.IsWithin (a : Rat) (y : Point shape) : Prop := ∀ l, y.get l ≤ a

namespace Simplex

variable {x : Simplex shape} {a : Rat}

/-- The simplex with a leash of another length. -/
def withLeash (a : Rat) (x : Simplex shape) : Simplex shape := { x with leash := a }

/-- What a call answers, with a leash of another length. -/
def withLeashes (a : Rat) (r : Simplex shape × Move shape) : Simplex shape × Move shape :=
  (r.1.withLeash a, r.2)

/-- **A leash with slack ends below zero.** -/
theorem isExhausted_eq (h : x.reference.IsWithin x.leash) (l : Label shape) :
    x.isExhausted l = decide (x.current.get l ≤ 0) := by
  have hslack := h l
  rw [Bool.eq_iff_iff, isExhausted, Bool.or_eq_true, decide_eq_true_iff, decide_eq_true_iff]
  constructor
  · rintro (hzero | hend)
    · exact hzero
    · -- a whole leash less than what is no more than a leash
      linarith
  · exact Or.inl

/-! ## §3. Moves on leashes with slack -/

/-- Calls one after another answer alike if what follows does. -/
theorem bind_withLeash {α : Type} {call : Except Fault α}
    {f f' : α → Except Fault (Simplex shape × Move shape)}
    (h : ∀ y, f y = withLeashes a <$> f' y) : (call >>= f) = withLeashes a <$> (call >>= f') := by
  rw [map_bind]
  exact bind_congr h

/-- So do two branches. -/
theorem ite_withLeash {p p' : Prop} [Decidable p] [Decidable p']
    {r r' s s' : Except Fault (Simplex shape × Move shape)} (hp : p ↔ p')
    (hr : r = withLeashes a <$> r') (hs : s = withLeashes a <$> s') :
    (if p then r else s) = withLeashes a <$> (if p' then r' else s') := by
  rw [apply_ite (Functor.map (withLeashes a)), if_congr hp hr hs]

theorem receive_withLeash (a : Rat) (x : Simplex shape) (l : Label shape) :
    (x.withLeash a).receive l = withLeashes a <$> x.receive l := by
  have hlabels : (x.withLeash a).labels = x.labels := rfl
  unfold receive
  refine ite_withLeash Iff.rfl (ite_withLeash Iff.rfl ?_ ?_) (ite_withLeash Iff.rfl rfl rfl)
  · rw [hlabels]
    cases x.labels.idxOf? (some l) <;> rfl
  · exact bind_withLeash fun entry => rfl

theorem extend_withLeash (a : Rat) (x : Simplex shape) (number : Nat) (l : Label shape) :
    (x.withLeash a).extend number l = withLeashes a <$> x.extend number l :=
  bind_withLeash fun _ => bind_withLeash fun _ => rfl

theorem release_withLeash (a : Rat) (x : Simplex shape) (l : Label shape) :
    (x.withLeash a).release l = withLeashes a <$> x.release l := by
  have hpath : (x.withLeash a).path = x.path := rfl
  unfold release
  rw [hpath]
  cases x.path.getLast? with
  | none => rfl
  | some entry => exact bind_withLeash fun first => bind_withLeash fun p => rfl

section

-- the moves that remain look at the leash, once each, to ask whether a weight is used up
variable (h : x.reference.IsWithin x.leash) (ha : x.reference.IsWithin a)
include h ha

/-- At no vertex does it matter how much slack there is. -/
theorem isExhausted_withLeash (y : Point shape) (l : Label shape) :
    ({ x.withLeash a with current := y } : Simplex shape).isExhausted l
      = ({ x with current := y } : Simplex shape).isExhausted l := by
  rw [isExhausted_eq (x := { x with current := y }) h,
    isExhausted_eq (x := { x.withLeash a with current := y }) ha]

theorem replaceBase_withLeash (entry : Label shape) :
    (x.withLeash a).replaceBase entry = withLeashes a <$> x.replaceBase entry := by
  refine bind_withLeash fun source => bind_withLeash fun first => bind_withLeash fun y => ?_
  refine ite_withLeash (by rw [isExhausted_withLeash h ha]) ?_ ?_
  · -- the walk is finished, or it goes on along the boundary
    exact ite_withLeash Iff.rfl rfl (bind_withLeash fun z => rfl)
  · exact bind_withLeash fun z => rfl

theorem replaceInner_withLeash (vertex : Nat) (before entry : Label shape) :
    (x.withLeash a).replaceInner vertex before entry
      = withLeashes a <$> x.replaceInner vertex before entry := by
  refine bind_withLeash fun source => bind_withLeash fun y => ?_
  refine ite_withLeash (by rw [isExhausted_withLeash h ha]) rfl ?_
  exact bind_withLeash fun z => rfl

theorem replaceTip_withLeash (entry : Label shape) :
    (x.withLeash a).replaceTip entry = withLeashes a <$> x.replaceTip entry := by
  refine bind_withLeash fun first => bind_withLeash fun y => ?_
  refine ite_withLeash Iff.rfl ?_ ?_
  · refine ite_withLeash (by rw [isExhausted_withLeash h ha]) rfl ?_
    -- the search for a strategy to release reads the ledger, and not the leash
    have hsame : ({ x.withLeash a with current := y } : Simplex shape).releasable? first entry
        = ({ x with current := y } : Simplex shape).releasable? first entry := rfl
    rw [hsame]
    cases ({ x with current := y } : Simplex shape).releasable? first entry <;> rfl
  · exact bind_withLeash fun p => rfl

theorem replace_withLeash (vertex : Nat) :
    (x.withLeash a).replace vertex = withLeashes a <$> x.replace vertex := by
  have hpath : (x.withLeash a).path = x.path := rfl
  unfold replace
  rw [hpath]
  cases x.path with
  | nil => rfl
  | cons first rest =>
    cases vertex with
    | zero => exact replaceBase_withLeash h ha first
    | succ v =>
      dsimp only
      cases (first :: rest)[v + 1]? with
      | some entry => exact replaceInner_withLeash h ha (v + 1) _ entry
      | none => exact replaceTip_withLeash h ha _

theorem drop_withLeash (vertex : Nat) :
    (x.withLeash a).drop vertex = withLeashes a <$> x.drop vertex := by
  have hlabels : (x.withLeash a).labels = x.labels := rfl
  unfold drop
  cases vertex with
  | zero => rfl
  | succ v =>
    have hentry : (x.withLeash a).path[v]? = x.path[v]? := rfl
    dsimp only
    rw [hentry]
    cases x.path[v]? with
    | none => rfl
    | some l =>
      -- the entry's strategy is saturated if its weight is used up at the base
      dsimp only
      rw [isExhausted_withLeash h ha, hlabels]
      cases (x.labels.eraseIdx (v + 1)).idxOf? (some l) <;> rfl

/-- **The length of a leash with slack has no say in any move.** -/
theorem step_withLeash (mv : Move shape) :
    (x.withLeash a).step mv = withLeashes a <$> x.step mv := by
  cases mv with
  | evaluate => rfl
  | extend entry l => exact extend_withLeash a x entry l
  | replace vertex => exact replace_withLeash h ha vertex
  | drop vertex => exact drop_withLeash h ha vertex
  | release l => exact release_withLeash a x l
  | finish => rfl

end

end Simplex

/-! ## §4. Runs on leashes with slack -/

namespace Pass

variable {g : Game} {limits : PassLimits} {clock : Clock} {r : Point shape} {a : Rat}
  {elapsed : Nat} {pass next : Pass shape}

/-- The pass with a leash of another length. -/
def withLeash (a : Rat) (pass : Pass shape) : Pass shape :=
  { pass with simplex := pass.simplex.withLeash a }

theorem evaluate_withLeash (g : Game) (a : Rat) (pass : Pass shape) :
    (pass.withLeash a).evaluate g = (pass.evaluate g).map (withLeash a) := by
  obtain ⟨x, mv, incumbent, pivots⟩ := pass
  show (incumbent.label g ⟨shape, x.current⟩ >>= _)
    = (incumbent.label g ⟨shape, x.current⟩ >>= _).map _
  cases incumbent.label g ⟨shape, x.current⟩ with
  | error fault => rfl
  | ok labelled =>
    show ((x.withLeash a).receive labelled.1.label >>= _)
      = (x.receive labelled.1.label >>= _).map _
    rw [Simplex.receive_withLeash]
    cases x.receive labelled.1.label <;> rfl

/-- **One move on either leash.** -/
theorem step_withLeash (h : pass.simplex.reference.IsWithin pass.simplex.leash)
    (ha : pass.simplex.reference.IsWithin a) (limits : PassLimits) (elapsed : Nat) :
    (pass.withLeash a).step g limits elapsed
      = (pass.step g limits elapsed).map (Sum.map id (withLeash a)) := by
  have hmove : (pass.withLeash a).move = pass.move := rfl
  have hpivots : (pass.withLeash a).pivots = pass.pivots := rfl
  by_cases hfin : pass.move = .finish
  · unfold step
    rw [hmove, hfin]
    rfl
  by_cases hev : pass.move = .evaluate
  · unfold step
    rw [evaluate_withLeash, hmove, hev]
    dsimp only
    rw [hpivots]
    cases limits.reached? pass.pivots elapsed with
    | some ending => rfl
    | none => cases pass.evaluate g <;> rfl
  · have hother : (pass.withLeash a).step g limits elapsed = (pass.withLeash a).advance :=
      step_eq_advance hfin hev
    rw [hother, step_eq_advance hfin hev]
    show ((pass.simplex.withLeash a).step pass.move >>= _)
      = (pass.simplex.step pass.move >>= _).map _
    rw [Simplex.step_withLeash h ha]
    cases pass.simplex.step pass.move <;> rfl

/-- The leash stays as it is.  A pass is its own image for the leash that it has. -/
theorem leash_step (h : pass.simplex.reference.IsWithin pass.simplex.leash)
    (hstep : pass.step g limits elapsed = .ok (.inr next)) :
    next.simplex.leash = pass.simplex.leash := by
  have hself : pass.withLeash pass.simplex.leash = pass := rfl
  have hsame := step_withLeash (g := g) h h limits elapsed
  rw [hself, hstep] at hsame
  have hnext : next = next.withLeash pass.simplex.leash := Sum.inr.inj (Except.ok.inj hsame)
  exact congrArg (fun p => p.simplex.leash) hnext

/-- **The pass on the other leash** is the image of the first, as long as both leashes have
slack. -/
theorem simulation_withLeash (ha : r.IsWithin a) (g : Game) (limits : PassLimits)
    (clock : Clock) :
    Simulation g g limits clock
      (fun pass => pass.simplex.IsLevel r ∧ r.IsWithin pass.simplex.leash) (withLeash a) id where
  step := by
    rintro pass ⟨hlevel, h⟩
    rw [← hlevel.reference_eq] at h ha
    exact step_withLeash h ha limits _
  next := by
    rintro pass next ⟨hlevel, h⟩ hstep
    refine ⟨isLevel_step hlevel hstep, ?_⟩
    rw [← hlevel.reference_eq] at h ⊢
    rwa [leash_step h hstep]
  evaluates := fun _ => rfl

/-- **A run on either leash** evaluates the same profiles and has the same end. -/
theorem run_withLeash (hlevel : pass.simplex.IsLevel r) (h : r.IsWithin pass.simplex.leash)
    (ha : r.IsWithin a) (g : Game) (limits : PassLimits) (clock : Clock) (fuel : Nat) :
    (pass.withLeash a).run g limits clock fuel = pass.run g limits clock fuel
      ∧ (pass.withLeash a).evaluated g limits clock fuel = pass.evaluated g limits clock fuel := by
  have hsimulation := simulation_withLeash ha g limits clock
  constructor
  · rw [hsimulation.run ⟨hlevel, h⟩, Except.map_id]
    rfl
  · show ((pass.withLeash a).evaluations g limits clock fuel).map profile
      = (pass.evaluations g limits clock fuel).map profile
    rw [hsimulation.evaluations ⟨hlevel, h⟩, List.map_map]
    rfl

end Pass

/-! ## §5. Whole passes -/

section

variable {g : Game} {reference : Profile} {mesh : Rat} {leash leash' : Nat}

/-- A leash no shorter than one has slack at a normalized profile. -/
theorem Profile.IsNormalized.isWithin_leash (hn : reference.IsNormalized)
    (hleash : 1 ≤ (leash : Rat) * mesh) : Point.IsWithin (mesh * leash) reference.weights :=
  fun l => (hn.weight_le_one l).trans (hleash.trans_eq (mul_comm _ _))

/-- It is not empty, either. -/
theorem pos_of_one_le_mul (hleash : 1 ≤ (leash : Rat) * mesh) : 0 < leash := by
  refine Nat.pos_of_ne_zero fun hzero => ?_
  rw [hzero, Nat.cast_zero, zero_mul] at hleash
  exact absurd hleash (by norm_num)

/-- **Leashes as long as the simplex is wide.**  From any normalized profile, be it on the grid
or not, two leashes that are no shorter than one make the same pass: it evaluates the same
vertices in the same order, and has the same outcome, with the same incumbent.  If there are
players, there is an outcome. -/
theorem runPass_of_one_le_leash (hshape : reference.shape = g.shape) (hn : reference.IsNormalized)
    (hmesh : 0 < mesh) (hleash : 1 ≤ (leash : Rat) * mesh) (hleash' : 1 ≤ (leash' : Rat) * mesh)
    (incumbent : Incumbent) (maxPivots : Option Nat) (clock clock' : Clock) :
    evaluatedProfiles g reference mesh leash' incumbent ⟨maxPivots, none⟩ clock'
        = evaluatedProfiles g reference mesh leash incumbent ⟨maxPivots, none⟩ clock
      ∧ runPass g reference mesh leash' incumbent ⟨maxPivots, none⟩ clock'
        = runPass g reference mesh leash incumbent ⟨maxPivots, none⟩ clock
      ∧ (g.shape ≠ [] →
          ∃ o, runPass g reference mesh leash incumbent ⟨maxPivots, none⟩ clock = .ok o) := by
  -- with as many moves, the pass on one leash is that on the other
  have hstart : (Pass.start reference.weights mesh leash incumbent).simplex.IsLevel
      reference.weights := Simplex.IsLevel.start _ _ _
  have hsame := Pass.run_withLeash hstart (hn.isWithin_leash hleash) (hn.isWithin_leash hleash') g
    ⟨maxPivots, none⟩ clock
  rw [runPass_congr rfl g reference mesh leash' incumbent clock' clock, evaluatedProfiles,
    passEvaluations_congr rfl g reference mesh leash' incumbent clock' clock]
  by_cases hplayers : g.shape = []
  · -- without players the leash does not show in the number of moves that are allowed
    have hbound : configurationBound reference.shape.size leash'
        = configurationBound reference.shape.size leash := by
      rw [hshape, hplayers]
      rfl
    refine ⟨?_, ?_, fun h => absurd hplayers h⟩
    · show Pass.evaluated g _ clock (configurationBound reference.shape.size leash') _ = _
      rw [hbound]
      exact (hsame _).2
    · show Pass.run g _ clock (configurationBound reference.shape.size leash') _ = _
      rw [hbound]
      exact (hsame _).1
  · -- otherwise both passes end, and could be allowed more moves
    obtain ⟨o, ho⟩ := exists_runPass_of_isNormalized hplayers hshape hn hmesh
      (pos_of_one_le_mul hleash) incumbent ⟨maxPivots, none⟩ clock
    obtain ⟨o', ho'⟩ := exists_runPass_of_isNormalized hplayers hshape hn hmesh
      (pos_of_one_le_mul hleash') incumbent ⟨maxPivots, none⟩ clock
    obtain ⟨fuel, hle, hle'⟩ : ∃ fuel, configurationBound reference.shape.size leash ≤ fuel
        ∧ configurationBound reference.shape.size leash' ≤ fuel :=
      ⟨_, Nat.le_max_left _ _, Nat.le_max_right _ _⟩
    obtain ⟨hend, hevaluated⟩ := hsame fuel
    refine ⟨?_, ?_, fun _ => ⟨o, ho⟩⟩
    · exact (Pass.evaluated_of_le ho' hle').symm.trans
        (hevaluated.trans (Pass.evaluated_of_le ho hle))
    · rw [ho, ho', ← (Pass.run_of_le ho hle).1, ← (Pass.run_of_le ho' hle').1]
      exact hend

/-- At two sevenths, a leash of four is longer than one.  The weights of the start are no
multiples of this mesh, and the pass comes to weights below zero; a leash of nine makes no
difference to it. -/
theorem runPass_of_one_le_leash_evenWithoutBottom :
    ∃ o, runPass ClassicGame.dominantRow.game.toGame evenWithoutBottom (2 / 7) 4
        ⟨3, evenWithoutBottom, 0⟩ ⟨some 7, none⟩ .stopped = .ok o
      ∧ o.pivots = 7
      ∧ o.incumbent.profile.values = [-1 / 14, -1 / 14, 8 / 7, -1 / 14, 15 / 14]
      ∧ runPass ClassicGame.dominantRow.game.toGame evenWithoutBottom (2 / 7) 9
        ⟨3, evenWithoutBottom, 0⟩ ⟨some 7, none⟩ .stopped = .ok o
      ∧ evaluatedProfiles ClassicGame.dominantRow.game.toGame evenWithoutBottom (2 / 7) 9
          ⟨3, evenWithoutBottom, 0⟩ ⟨some 7, none⟩ .stopped
        = evaluatedProfiles ClassicGame.dominantRow.game.toGame evenWithoutBottom (2 / 7) 4
          ⟨3, evenWithoutBottom, 0⟩ ⟨some 7, none⟩ .stopped := by
  have hmesh : (0 : Rat) < 2 / 7 := by norm_num
  have hfour : (1 : Rat) ≤ (4 : Nat) * (2 / 7) := by norm_num
  have hnine : (1 : Rat) ≤ (9 : Nat) * (2 / 7) := by norm_num
  obtain ⟨hsame, hrun, hok⟩ := runPass_of_one_le_leash isPassStart_evenWithoutBottom.shape_eq
    isPassStart_evenWithoutBottom.isNormalized hmesh hfour hnine ⟨3, evenWithoutBottom, 0⟩
    (some 7) .stopped .stopped
  obtain ⟨o, ho⟩ := hok isPassStart_evenWithoutBottom.players
  have hvalues : (runPass ClassicGame.dominantRow.game.toGame evenWithoutBottom (2 / 7) 4
      ⟨3, evenWithoutBottom, 0⟩ ⟨some 7, none⟩ .stopped).map
        (fun o => (o.pivots, o.incumbent.profile.values))
      = .ok (7, [-1 / 14, -1 / 14, 8 / 7, -1 / 14, 15 / 14]) := by
    decide +kernel
  rw [ho] at hvalues
  obtain ⟨hpivots, hprofile⟩ := Prod.mk.inj (Except.ok.inj hvalues)
  exact ⟨o, ho, hpivots, hprofile, hrun.trans ho, hsame⟩

end

end SimplicialNash
