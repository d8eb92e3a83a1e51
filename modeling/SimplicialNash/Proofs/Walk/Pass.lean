/-
  SimplicialNash.Proofs.Walk.Pass
  ───────────────────────────────
  **A pass ends, and every vertex on its way is a profile on the grid.**

  `Pass.StandsAt n` says that a pass stands at the `n`-th door of its walk.  One
  move raises the rank, twice that number and one more midway
  (`Pass.StandsAt.step`); ranks are bounded because doors are, so a pass with
  as many moves as `configurationBound` allows comes to its end
  (`Pass.StandsAt.run`).  `passTrace` lists the states of a pass, and
  `passEvaluations` those in which it evaluates a label.

  Main statements, for every game with players, every normalized start of its
  shape whose weights are multiples of the mesh, and every leash:
    * `runPass_isOk`: no call on the way is a fault, and no position is out of
      range;
    * `runPass_fullyLabeled`: without limits the walk is finished in the end,
      and no configuration is evaluated twice;
    * `isNormalized_of_mem_passEvaluations`: whatever is evaluated is a profile
      on the grid.
-/
import SimplicialNash.Game.Classic
import SimplicialNash.Proofs.Deviation
import SimplicialNash.Proofs.Walk.Grid
import SimplicialNash.Proofs.Walk.Move
import SimplicialNash.Walk.Pass

namespace SimplicialNash

open Label

variable {shape : Shape}

/-! ## §1. The states of a pass -/

namespace Pass

/-- The states through which at most `fuel` moves lead, in order. -/
def trace (g : Game) (limits : PassLimits) (clock : Clock) :
    (fuel : Nat) → Pass shape → List (Pass shape)
  | 0, _ => []
  | fuel + 1, pass =>
    pass :: match pass.step g limits (clock pass.incumbent.evaluations) with
      | .ok (.inr next) => trace g limits clock fuel next
      | _ => []

/-- **What every move keeps** holds of all states. -/
theorem trace_invariant {g : Game} {limits : PassLimits} {clock : Clock} {fuel : Nat}
    {pass state : Pass shape} {P : Pass shape → Prop} (h : P pass)
    (hstep : ∀ p next, P p →
      p.step g limits (clock p.incumbent.evaluations) = .ok (.inr next) → P next)
    (hmem : state ∈ pass.trace g limits clock fuel) : P state := by
  induction fuel generalizing pass with
  | zero => cases hmem
  | succ fuel ih =>
    rw [trace] at hmem
    rcases List.mem_cons.mp hmem with rfl | hmem
    · exact h
    · cases hnext : pass.step g limits (clock pass.incumbent.evaluations) with
      | error fault =>
        rw [hnext] at hmem
        cases hmem
      | ok r =>
        rw [hnext] at hmem
        cases r with
        | inl o => cases hmem
        | inr next => exact ih (hstep pass next h hnext) hmem

/-- Whether the next move evaluates a label. -/
def evaluates (limits : PassLimits) (clock : Clock) (pass : Pass shape) : Bool :=
  pass.move == .evaluate
    && (limits.reached? pass.pivots (clock pass.incumbent.evaluations)).isNone

/-- A move that evaluates nothing. -/
def advance (pass : Pass shape) : Except Fault (PassOutcome ⊕ Pass shape) := do
  let (simplex, move) ← pass.simplex.step pass.move
  return .inr { pass with simplex := simplex, move := move }

/-- Such a move leaves limits and incumbent alone. -/
theorem step_eq_advance {g : Game} {limits : PassLimits} {elapsed : Nat} {pass : Pass shape}
    (hfin : pass.move ≠ .finish) (hev : pass.move ≠ .evaluate) :
    pass.step g limits elapsed = pass.advance := by
  unfold step
  split
  · next hm => exact absurd hm hfin
  · next hm => exact absurd hm hev
  · rfl

/-- What tells a state of the walk from others: path, flags, ledger, and the number
of the vertex that is to be labelled. -/
def configuration (pass : Pass shape) :
    List (Label shape) × StrategyTable shape Bool × StrategyTable shape Bool
      × StrategyTable shape Int × Nat :=
  (pass.simplex.path, pass.simplex.triangulated, pass.simplex.saturated, pass.simplex.steps,
    pass.simplex.slot)

/-- The positions that the next move uses exist. -/
def HasPositions (x : Simplex shape) : Move shape → Prop
  | .evaluate => x.slot < x.labels.length
  | .extend entry _ => entry ≤ x.path.length
  | .replace vertex => x.path ≠ [] ∧ vertex < x.labels.length
  | .drop vertex => 0 < vertex ∧ vertex ≤ x.path.length
  | .release _ => x.path ≠ []
  | .finish => True

/-- No position is out of range: the path has no more entries than there are labels,
there is one vertex more, and what the next move uses is there.  As long as the walk
goes on, every player has a strategy that is not saturated. -/
structure InRange (pass : Pass shape) : Prop where
  path_le : pass.simplex.path.length ≤ shape.size
  labels_eq : pass.simplex.labels.length = pass.simplex.path.length + 1
  positions : HasPositions pass.simplex pass.move
  unsaturated : pass.move ≠ .finish → ∀ l : Label shape, ∃ k : Label shape,
    k.player = l.player ∧ pass.simplex.saturated.get k = false

end Pass

/-- The states through which a pass leads. -/
def passTrace (g : Game) (reference : Profile) (mesh : Rat) (leashLength : Nat)
    (incumbent : Incumbent) (limits : PassLimits) (clock : Clock) : List (Pass reference.shape) :=
  (Pass.start reference.weights mesh leashLength incumbent).trace g limits clock
    (configurationBound reference.shape.size leashLength)

/-- The states in which a pass evaluates a label. -/
def passEvaluations (g : Game) (reference : Profile) (mesh : Rat) (leashLength : Nat)
    (incumbent : Incumbent) (limits : PassLimits) (clock : Clock) : List (Pass reference.shape) :=
  (passTrace g reference mesh leashLength incumbent limits clock).filter
    (Pass.evaluates limits clock)

/-! ## §2. Where a pass stands -/

section

variable {g : Game} {G : Raster shape} {f : Heights shape → Label shape} {n m fuel elapsed : Nat}
  {pass next : Pass shape} {limits : PassLimits} {clock : Clock}

/-- The game labels every point of the raster, and `f` is what it answers. -/
def Raster.IsLabelling (g : Game) (G : Raster shape) (f : Heights shape → Label shape) : Prop :=
  ∀ z, ∃ d : Deviation shape, g.bestDeviation ⟨shape, G.point z⟩ = .ok d ∧ d.label = f z

/-- A game with players labels all points of its shape, where every player has strategies. -/
theorem Raster.exists_isLabelling (G : Raster shape) (hs : shape = g.shape)
    (hplayers : g.shape ≠ []) (h0 : 0 ∉ shape) : ∃ f, G.IsLabelling g f := by
  have hlabel : ∀ z, ∃ d : Deviation shape, g.bestDeviation ⟨shape, G.point z⟩ = .ok d :=
    fun z => Game.exists_bestDeviation (p := ⟨shape, G.point z⟩) hs (hs ▸ hplayers) h0
  choose d hd using hlabel
  exact ⟨fun z => (d z).label, fun z => ⟨d z, hd z, rfl⟩⟩

/-- The incumbent's excess is not above that of a labelled vertex. -/
def Raster.IsSeen (g : Game) (G : Raster shape) (f : Heights shape → Label shape) (regret : Rat)
    (z : Heights shape) : Prop := regret ≤ g.gain ⟨shape, G.point z⟩ (f z)

namespace Pass

/-- A pass stands at the door that its walk reaches after `n` steps. -/
def StandsAt (g : Game) (G : Raster shape) (f : Heights shape → Label shape) (n : Nat)
    (pass : Pass shape) : Prop :=
  ∃ a, Door.Chain G.room f n a
    ∧ Stands G f (G.IsSeen g f pass.incumbent.regret) pass.simplex pass.move a

/-- Twice the number of the door, and one more midway. -/
def rank (n : Nat) (pass : Pass shape) : Nat := 2 * n + pass.move.isMidway.toNat

end Pass

/-- Only a reached limit ends a pass early. -/
theorem PassLimits.reached?_ne_fullyLabeled {ending : PassEnd}
    (h : limits.reached? n elapsed = some ending) : ending ≠ .fullyLabeled := by
  unfold PassLimits.reached? at h
  split_ifs at h <;> cases h <;> decide

namespace Pass.StandsAt

/-- A call that arrives makes a pass stand further on. -/
theorem of_arrives {a : Door shape} {incumbent : Incumbent} {midway : Bool}
    {r : Except Fault (Simplex shape × Move shape)} (pivots : Nat) (hc : Door.Chain G.room f n a)
    (h : Arrives G f (G.IsSeen g f incumbent.regret) midway a r) :
    ∃ x mv, r = .ok (x, mv) ∧ ∃ m, StandsAt g G f m ⟨x, mv, incumbent, pivots⟩
      ∧ 2 * n + midway.toNat < rank m ⟨x, mv, incumbent, pivots⟩ := by
  obtain ⟨x, mv, hr, hcase⟩ := h
  refine ⟨x, mv, hr, ?_⟩
  rcases hcase with ⟨hm, hmv, hst⟩ | ⟨hmv, b, hnext, hst⟩
  · exact ⟨n, ⟨a, hc, hst⟩, by rw [rank, hm, hmv]; simp⟩
  · refine ⟨n + 1, ⟨b, hc.step hnext, hst⟩, ?_⟩
    have := Bool.toNat_le midway
    rw [rank, hmv]
    simp
    omega

/-- **A label is evaluated.** -/
theorem evaluate (h : StandsAt g G f n pass) (hf : G.IsLabelling g f)
    (hm : pass.move = .evaluate) :
    ∃ next m, pass.evaluate g = .ok next ∧ StandsAt g G f m next ∧ 2 * n < rank m next
      ∧ next.pivots = pass.pivots + 1 := by
  obtain ⟨a, hc, hst⟩ := h
  obtain ⟨x, mv, incumbent, pivots⟩ := pass
  dsimp only at hm hst
  subst hm
  cases hst with
  | evaluate hp hd =>
    obtain ⟨d, hdev, hlabel⟩ := hf (x.cell.vertex G.room x.slot)
    -- the incumbent takes the excess in, so it is not above that of the new vertex
    have hgain := Game.excess_eq_gain hdev
    have hinc := incumbent.regret_observe_le ⟨shape, x.current⟩ d.excess
    generalize he : incumbent.observe ⟨shape, x.current⟩ d.excess = inc' at hinc
    have hp' : x.IsPending G f (G.IsSeen g f inc'.regret) :=
      ⟨hp.isOn, hp.current, hp.labels, fun y hy => hinc.2.trans (hp.seen y hy)⟩
    have hseen : G.IsSeen g f inc'.regret (x.cell.vertex G.room x.slot) := by
      have h1 := hinc.1
      rw [hgain, hlabel] at h1
      exact h1
    obtain ⟨x', mv, hr, m, hat, hrank⟩ := of_arrives (g := g) (pivots + 1) hc
      (hp'.receive hd hseen hlabel.symm)
    refine ⟨_, m, ?_, hat, hrank, rfl⟩
    rw [← hp.current] at hdev
    have hlab : incumbent.label g ⟨shape, x.current⟩ = .ok (d, inc') := by
      rw [Incumbent.label, hdev, ok_bind, he]
      rfl
    show (incumbent.label g ⟨shape, x.current⟩ >>= _) = _
    rw [hlab]
    show (x.receive d.label >>= _) = _
    rw [hr]
    rfl

/-- **One move.**  Either the pass goes on and its rank is higher, or it ends. -/
theorem step (h : StandsAt g G f n pass) (hf : G.IsLabelling g f) (limits : PassLimits)
    (clock : Clock) :
    (∃ next m, pass.step g limits (clock pass.incumbent.evaluations) = .ok (.inr next)
        ∧ StandsAt g G f m next ∧ rank n pass < rank m next
        ∧ next.pivots = pass.pivots + (pass.evaluates limits clock).toNat)
      ∨ ∃ ending, pass.step g limits (clock pass.incumbent.evaluations)
          = .ok (.inl (pass.outcome ending))
        ∧ pass.evaluates limits clock = false
        ∧ (ending = .fullyLabeled ∧ pass.move = .finish
          ∨ limits.reached? pass.pivots (clock pass.incumbent.evaluations) = some ending) := by
  by_cases hfin : pass.move = .finish
  · -- the walk is finished
    refine Or.inr ⟨.fullyLabeled, ?_, ?_, Or.inl ⟨rfl, hfin⟩⟩
    · rw [Pass.step, hfin]
    · rw [evaluates, hfin]
      rfl
  by_cases hev : pass.move = .evaluate
  · -- a label is evaluated, unless a limit is reached
    cases hl : limits.reached? pass.pivots (clock pass.incumbent.evaluations) with
    | some ending =>
      refine Or.inr ⟨ending, ?_, ?_, Or.inr rfl⟩
      · rw [Pass.step, hev]
        dsimp only
        rw [hl]
      · rw [evaluates, hl, Option.isNone_some, Bool.and_false]
    | none =>
      obtain ⟨next, m, hnext, hat, hrank, hpiv⟩ := h.evaluate hf hev
      refine Or.inl ⟨next, m, ?_, hat, ?_, ?_⟩
      · rw [Pass.step, hev]
        dsimp only
        rw [hl, hnext]
        rfl
      · rw [rank, hev]
        exact hrank
      · rw [hpiv, evaluates, hev, hl]
        rfl
  · obtain ⟨a, hc, hst⟩ := h
    have harr := hst.step (hc.path_ne_nil Raster.exists_room_pos) hev hfin
    obtain ⟨x, mv, hr, m, hat, hrank⟩ := of_arrives (g := g) pass.pivots hc harr
    refine Or.inl ⟨⟨x, mv, pass.incumbent, pass.pivots⟩, m, ?_, hat, hrank, ?_⟩
    · rw [step_eq_advance hfin hev, advance, hr]
      rfl
    · rw [evaluates, beq_eq_false_iff_ne.mpr hev, Bool.false_and]
      rfl

/-- Ranks are bounded, because doors are. -/
theorem rank_lt (h : StandsAt g G f n pass) :
    rank n pass < 2 * Door.bound shape.size G.leash := by
  obtain ⟨a, hc, -⟩ := h
  have hn := hc.lt_bound Raster.exists_room_pos Raster.room_le
  have := Bool.toNat_le pass.move.isMidway
  unfold rank
  omega

/-- As long as the walk goes on, it stands at a simplex on the grid. -/
theorem isOn (h : StandsAt g G f n pass) (hm : pass.move ≠ .finish) : pass.simplex.IsOn G := by
  obtain ⟨a, -, hst⟩ := h
  exact hst.isOn hm

theorem hasFlagsApart (h : StandsAt g G f n pass) : pass.simplex.HasFlagsApart := by
  obtain ⟨a, -, hst⟩ := h
  exact hst.hasFlagsApart

/-- All positions exist. -/
theorem inRange (h : StandsAt g G f n pass) : pass.InRange := by
  have hopen : pass.move ≠ .finish → ∀ l : Label shape, ∃ k : Label shape,
      k.player = l.player ∧ pass.simplex.saturated.get k = false :=
    fun hm l => (h.isOn hm).valid.exists_open l
  obtain ⟨a, hc, hst⟩ := h
  obtain ⟨x, mv, incumbent, pivots⟩ := pass
  dsimp only at hst hopen
  cases hst with
  | evaluate h hd =>
    have hl := h.length_labels hd.vertex_le
    refine ⟨h.isOn.valid.length_path_le, hl, ?_, hopen⟩
    show x.slot < x.labels.length
    rw [hl]
    exact Nat.lt_succ_of_le hd.vertex_le
  | extend h hd he hg hc =>
    exact ⟨h.isOn.valid.length_path_le, h.length_labels, hg.length_path.1, hopen⟩
  | replace h hd =>
    refine ⟨h.isOn.valid.length_path_le, h.length_labels,
      ⟨hc.path_ne_nil Raster.exists_room_pos rfl, ?_⟩, hopen⟩
    show _ < x.labels.length
    rw [h.length_labels]
    exact Nat.lt_succ_of_le hd.vertex_le
  | drop h hd hg hc =>
    exact ⟨h.isOn.valid.length_path_le, h.length_labels, ⟨Nat.succ_pos _, hd.vertex_le⟩, hopen⟩
  | release h hd hp =>
    refine ⟨h.isOn.valid.length_path_le, h.length_labels, ?_, hopen⟩
    show x.path ≠ []
    rw [hp]
    exact List.concat_ne_nil _ _
  | finish hc hseen hf hp hl =>
    refine ⟨?_, hl, trivial, hopen⟩
    show x.path.length ≤ shape.size
    rw [hp]
    exact hc.length_path_le

/-! ## §3. Runs -/

/-- **A run ends.**  With as many moves as there are ranks left, it ends at a reached
limit or because the walk is finished. -/
theorem run (h : StandsAt g G f n pass) (hf : G.IsLabelling g f) (limits : PassLimits)
    (clock : Clock) (hfuel : 2 * Door.bound shape.size G.leash ≤ fuel + rank n pass) :
    ∃ last m ending, Pass.run g limits clock fuel pass = .ok (last.outcome ending)
      ∧ StandsAt g G f m last
      ∧ last.pivots = pass.pivots
        + ((pass.trace g limits clock fuel).filter (evaluates limits clock)).length
      ∧ (ending = .fullyLabeled ∧ last.move = .finish
        ∨ ∃ elapsed, limits.reached? last.pivots elapsed = some ending) := by
  induction fuel generalizing n pass with
  | zero =>
    have := h.rank_lt
    omega
  | succ fuel ih =>
    rcases h.step hf limits clock with
      ⟨next, m, hstep, hat, hrank, hpiv⟩ | ⟨ending, hstep, heval, hend⟩
    · obtain ⟨last, k, ending, hrun, hlast, hcount, hend⟩ := ih hat (by omega)
      refine ⟨last, k, ending, ?_, hlast, ?_, hend⟩
      · rw [Pass.run, hstep]
        exact hrun
      · rw [hcount, hpiv, Pass.trace, hstep, List.filter_cons]
        dsimp only
        cases pass.evaluates limits clock with
        | true => rw [if_pos rfl, List.length_cons, Bool.toNat_true]; omega
        | false => rw [if_neg (by decide), Bool.toNat_false]; omega
    · -- the last state counts no evaluation
      refine ⟨pass, n, ending, ?_, h, ?_, hend.imp id fun hl => ⟨_, hl⟩⟩
      · rw [Pass.run, hstep]
      · rw [Pass.trace, hstep, List.filter_cons]
        dsimp only
        rw [heval, if_neg (by decide)]
        rfl

/-- A run passes from door to door. -/
theorem of_mem_trace (h : StandsAt g G f n pass) (hf : G.IsLabelling g f) (limits : PassLimits)
    (clock : Clock) {p : Pass shape} (hp : p ∈ pass.trace g limits clock fuel) :
    ∃ m, StandsAt g G f m p ∧ rank n pass ≤ rank m p := by
  refine trace_invariant (P := fun q => ∃ m, StandsAt g G f m q ∧ rank n pass ≤ rank m q)
    ⟨n, h, Nat.le_refl _⟩ ?_ hp
  rintro q next ⟨m, hat, hle⟩ hnext
  rcases hat.step hf limits clock with ⟨after, k, hstep, hafter, hrank, -⟩ | ⟨ending, hstep, -⟩
  · obtain rfl : after = next := Sum.inr.inj (Except.ok.inj (hstep.symm.trans hnext))
    exact ⟨k, hafter, by omega⟩
  · -- a pass that ends has no next state
    cases hstep.symm.trans hnext

/-- States with the same configuration stand at the same door. -/
theorem eq_of_configuration_eq {p q : Pass shape} (hp : StandsAt g G f n p)
    (hq : StandsAt g G f m q) (hpe : p.move = .evaluate) (hqe : q.move = .evaluate)
    (h : p.configuration = q.configuration) : n = m := by
  obtain ⟨a, hca, hsa⟩ := hp
  obtain ⟨b, hcb, hsb⟩ := hq
  rw [hpe] at hsa
  rw [hqe] at hsb
  simp only [configuration, Prod.mk.injEq] at h
  obtain ⟨hpath, -, hsat, hsteps, hslot⟩ := h
  have hcell : p.simplex.cell = q.simplex.cell := by
    unfold Simplex.cell
    rw [hpath, hsat, hsteps]
  cases hsa with
  | evaluate =>
    cases hsb with
    | evaluate =>
      rw [hcell, hslot] at hca
      exact hca.injective hcb

theorem move_of_evaluates (h : pass.evaluates limits clock = true) : pass.move = .evaluate := by
  rw [evaluates, Bool.and_eq_true, beq_iff_eq] at h
  exact h.1

/-- **No configuration is evaluated twice.** -/
theorem nodup_configurations (h : StandsAt g G f n pass) (hf : G.IsLabelling g f)
    (limits : PassLimits) (clock : Clock) :
    (((pass.trace g limits clock fuel).filter (evaluates limits clock)).map
      configuration).Nodup := by
  induction fuel generalizing n pass with
  | zero => exact List.nodup_nil
  | succ fuel ih =>
    rw [Pass.trace, List.filter_cons]
    rcases h.step hf limits clock with
      ⟨next, m, hstep, hat, hrank, -⟩ | ⟨ending, hstep, heval, -⟩
    · rw [hstep]
      dsimp only
      split
      · next he =>
        rw [List.map_cons, List.nodup_cons]
        refine ⟨?_, ih hat⟩
        intro hmem
        -- what is evaluated later stands at a later door
        obtain ⟨q, hq, hconf⟩ := List.mem_map.mp hmem
        obtain ⟨hq, hqe⟩ := List.mem_filter.mp hq
        obtain ⟨k, hk, hle⟩ := hat.of_mem_trace hf limits clock hq
        have hpm := move_of_evaluates he
        have hqm := move_of_evaluates hqe
        have e := hk.eq_of_configuration_eq h hqm hpm hconf
        have h1 : rank n pass = 2 * n := by rw [rank, hpm]; rfl
        have h2 : rank k q = 2 * k := by rw [rank, hqm]; rfl
        omega
      · exact ih hat
    · rw [hstep, heval, if_neg (by decide)]
      exact List.nodup_nil

/-- The first vertex is that of the first door. -/
theorem start (g : Game) (G : Raster shape) (f : Heights shape → Label shape)
    (incumbent : Incumbent) :
    StandsAt g G f 0 (Pass.start G.reference G.mesh G.leash incumbent) := by
  refine ⟨_, Door.Chain.start, ?_⟩
  refine stands_of_cell G.cell_start (Door.isValid_start Raster.exists_room_pos) ⟨rfl, rfl, rfl⟩
    G.isOn_start.triangulated G.reference_eq rfl ?_
  -- a single vertex has an empty facet
  intro y hy
  cases hy

end Pass.StandsAt

end

/-! ## §4. Passes from a start on the grid -/

/-- What a pass starts from: a game with players, and a normalized profile of its
shape whose weights are multiples of the mesh. -/
structure IsPassStart (g : Game) (reference : Profile) (mesh : Rat) (leashLength : Nat) :
    Prop where
  players : g.shape ≠ []
  shape_eq : reference.shape = g.shape
  isNormalized : reference.IsNormalized
  mesh_pos : 0 < mesh
  isOnGrid : reference.IsOnGrid mesh
  leash_pos : 0 < leashLength

/-- Both coins show heads. -/
def heads : Profile := ⟨[2, 2], .tabulate fun l => if l.strategy = 0 then 1 else 0⟩

theorem isPassStart_heads :
    IsPassStart ClassicGame.matchingPennies.game.toGame heads (1 / 9) 9 where
  players := by decide +kernel
  shape_eq := by decide +kernel
  isNormalized := by decide +kernel
  mesh_pos := by decide +kernel
  isOnGrid := by
    intro w hw
    obtain ⟨l, rfl⟩ := StrategyTable.mem_toList.mp hw
    refine ⟨if l.strategy = 0 then 9 else 0, (StrategyTable.get_tabulate _ l).trans ?_⟩
    split <;> norm_num
  leash_pos := by decide

/-- There are more moves in a pass than ranks. -/
theorem two_mul_bound_le_configurationBound (size leashLength : Nat) :
    2 * Door.bound size leashLength ≤ configurationBound size leashLength := by
  have hpaths : (size + 1) * (size + 1) ^ size ≤ (size + 2) ^ (size + 1) := by
    rw [← Nat.pow_succ']
    exact Nat.pow_le_pow_left (by omega) _
  have hone : 1 ≤ (size + 2) ^ (size + 1) := Nat.one_le_pow _ _ (by omega)
  have hflags : 2 ^ size ≤ 4 ^ size := Nat.pow_le_pow_left (by omega) _
  have hledgers : (size * leashLength + 1) ^ size
      ≤ (UInt64.size + size * leashLength + 1) ^ size :=
    Nat.pow_le_pow_left (by omega) _
  calc 2 * Door.bound size leashLength
      = ((size + 1) * (size + 1) ^ size) * 1 * 1 * 2 ^ size
          * (size * leashLength + 1) ^ size * 4 := by
        unfold Door.bound
        ring
    _ ≤ (size + 2) ^ (size + 1) * (size + 2) ^ (size + 1) * (size + 2) * 4 ^ size
          * (UInt64.size + size * leashLength + 1) ^ size * (2 * size + 4) := by
        gcongr <;> omega
    _ = configurationBound size leashLength := rfl

/-- **A pass ends**, whether or not the weights that it starts from are multiples of the mesh. -/
theorem exists_runPass_of_isNormalized {g : Game} {reference : Profile} {mesh : Rat}
    {leashLength : Nat} (hplayers : g.shape ≠ []) (hshape : reference.shape = g.shape)
    (hn : reference.IsNormalized) (hmesh : 0 < mesh) (hleash : 0 < leashLength)
    (incumbent : Incumbent) (limits : PassLimits) (clock : Clock) :
    ∃ o, runPass g reference mesh leashLength incumbent limits clock = .ok o := by
  obtain ⟨G, rfl, rfl, href⟩ := Raster.exists_of_profile hn hmesh hleash
  obtain ⟨f, hf⟩ := G.exists_isLabelling hshape hplayers hn.zero_notMem
  have hstart := Pass.StandsAt.start g G f incumbent
  rw [href] at hstart
  have hfuel := two_mul_bound_le_configurationBound reference.shape.size G.leash
  obtain ⟨last, n, ending, hrun, -⟩ :=
    hstart.run hf limits clock (hfuel.trans (Nat.le_add_right _ _))
  exact ⟨last.outcome ending, hrun⟩

namespace IsPassStart

variable {g : Game} {reference : Profile} {mesh : Rat} {leashLength : Nat}

/-- **A pass begins at the first door of a walk on its grid.** -/
theorem exists_standsAt (h : IsPassStart g reference mesh leashLength) (incumbent : Incumbent) :
    ∃ (G : Grid reference.shape) (f : Heights reference.shape → Label reference.shape),
      G.mesh = mesh ∧ G.leash = leashLength ∧ G.IsLabelling g f
        ∧ Pass.StandsAt g G f 0 (Pass.start reference.weights mesh leashLength incumbent) := by
  obtain ⟨G, rfl, rfl, href⟩ :=
    Grid.exists_of_profile h.isNormalized h.isOnGrid h.mesh_pos h.leash_pos
  obtain ⟨f, hf⟩ := G.exists_isLabelling h.shape_eq h.players h.isNormalized.zero_notMem
  have hstart := Pass.StandsAt.start g G f incumbent
  rw [href] at hstart
  exact ⟨G, f, rfl, rfl, hf, hstart⟩

/-- **Every state of a pass stands at a door** of a walk from the reference profile. -/
theorem exists_standsAt_of_mem (h : IsPassStart g reference mesh leashLength)
    {incumbent : Incumbent} {limits : PassLimits} {clock : Clock} {p : Pass reference.shape}
    (hp : p ∈ passTrace g reference mesh leashLength incumbent limits clock) :
    ∃ (G : Grid reference.shape) (f : Heights reference.shape → Label reference.shape) (n : Nat),
      G.mesh = mesh ∧ G.leash = leashLength ∧ G.reference = reference.weights
        ∧ Pass.StandsAt g G f n p := by
  obtain ⟨G, f, rfl, rfl, hf, hstart⟩ := h.exists_standsAt incumbent
  obtain ⟨n, hat, -⟩ := hstart.of_mem_trace hf limits clock hp
  -- the first state still shows what the grid was made from
  have href := (hstart.isOn (fun hfinish => nomatch hfinish)).reference
  exact ⟨G, f, n, rfl, rfl, href.symm, hat⟩

/-- **Where a label is evaluated**, all vertices but the one that is looked at have been
labelled by the game. -/
theorem exists_isPending_of_mem (h : IsPassStart g reference mesh leashLength)
    {incumbent : Incumbent} {limits : PassLimits} {clock : Clock} {p : Pass reference.shape}
    (hp : p ∈ passEvaluations g reference mesh leashLength incumbent limits clock) :
    ∃ (G : Grid reference.shape) (f : Heights reference.shape → Label reference.shape),
      G.mesh = mesh ∧ G.leash = leashLength ∧ G.reference = reference.weights
        ∧ G.IsLabelling g f ∧ p.simplex.IsPending G f (G.IsSeen g f p.incumbent.regret)
        ∧ Door.IsValid G.room f ⟨true, p.simplex.cell, p.simplex.slot⟩ := by
  obtain ⟨hp, heval⟩ := List.mem_filter.mp hp
  obtain ⟨G, f, rfl, rfl, hf, hstart⟩ := h.exists_standsAt incumbent
  have href := (hstart.isOn (fun hfinish => nomatch hfinish)).reference
  obtain ⟨n, ⟨a, -, hst⟩, -⟩ := hstart.of_mem_trace hf limits clock hp
  rw [Pass.StandsAt.move_of_evaluates heval] at hst
  cases hst with
  | evaluate hpending hdoor => exact ⟨G, f, rfl, rfl, href.symm, hf, hpending, hdoor⟩

/-- **A pass ends**, and it ends at a door of its walk. -/
theorem exists_runPass (h : IsPassStart g reference mesh leashLength) (incumbent : Incumbent)
    (limits : PassLimits) (clock : Clock) :
    ∃ (G : Grid reference.shape) (f : Heights reference.shape → Label reference.shape)
      (last : Pass reference.shape) (n : Nat) (ending : PassEnd),
      G.mesh = mesh ∧ G.leash = leashLength
        ∧ runPass g reference mesh leashLength incumbent limits clock = .ok (last.outcome ending)
        ∧ Pass.StandsAt g G f n last
        ∧ last.pivots
          = (passEvaluations g reference mesh leashLength incumbent limits clock).length
        ∧ (ending = .fullyLabeled ∧ last.move = .finish
          ∨ ∃ elapsed, limits.reached? last.pivots elapsed = some ending) := by
  obtain ⟨G, f, rfl, rfl, hf, hstart⟩ := h.exists_standsAt incumbent
  have hfuel := two_mul_bound_le_configurationBound reference.shape.size G.leash
  obtain ⟨last, n, ending, hrun, hlast, hcount, hend⟩ :=
    hstart.run hf limits clock (hfuel.trans (Nat.le_add_right _ _))
  refine ⟨G, f, last, n, ending, rfl, rfl, hrun, hlast, ?_, hend⟩
  rw [hcount]
  exact Nat.zero_add _

/-- **The last door.**  A pass that ends fully labelled has come to a cell whose
labels, as the game gives them, show it. -/
theorem exists_isFinal_of_isLabelling (h : IsPassStart g reference mesh leashLength)
    {incumbent : Incumbent} {limits : PassLimits} {clock : Clock} {o : PassOutcome}
    (ho : runPass g reference mesh leashLength incumbent limits clock = .ok o)
    (hend : o.ending = .fullyLabeled) :
    ∃ (G : Grid reference.shape) (f : Heights reference.shape → Label reference.shape)
      (c : Cell reference.shape),
      G.mesh = mesh ∧ G.leash = leashLength ∧ G.IsLabelling g f ∧ c.IsValid G.room
        ∧ c.IsFinal G.room f ∧ ∀ y ∈ c.vertices G.room, G.IsSeen g f o.incumbent.regret y := by
  obtain ⟨G, f, rfl, rfl, hf, hstart⟩ := h.exists_standsAt incumbent
  have hfuel := two_mul_bound_le_configurationBound reference.shape.size G.leash
  obtain ⟨last, n, ending, hrun, ⟨a, -, hst⟩, -, hcase⟩ :=
    hstart.run hf limits clock (hfuel.trans (Nat.le_add_right _ _))
  obtain rfl : last.outcome ending = o := Except.ok.inj (hrun.symm.trans ho)
  rcases hcase with ⟨-, hmv⟩ | ⟨elapsed, hreached⟩
  · rw [hmv] at hst
    cases hst with
    | finish hc hseen hfinal => exact ⟨G, f, _, rfl, rfl, hf, hc, hfinal, hseen⟩
  · exact absurd hend (PassLimits.reached?_ne_fullyLabeled hreached)

theorem exists_isFinal (h : IsPassStart g reference mesh leashLength) {incumbent : Incumbent}
    {limits : PassLimits} {clock : Clock} {o : PassOutcome}
    (ho : runPass g reference mesh leashLength incumbent limits clock = .ok o)
    (hend : o.ending = .fullyLabeled) :
    ∃ (G : Grid reference.shape) (f : Heights reference.shape → Label reference.shape)
      (c : Cell reference.shape),
      G.mesh = mesh ∧ G.leash = leashLength ∧ c.IsValid G.room ∧ c.IsFinal G.room f
        ∧ ∀ y ∈ c.vertices G.room, G.IsSeen g f o.incumbent.regret y := by
  obtain ⟨G, f, c, hm, hl, -, hfinal⟩ := h.exists_isFinal_of_isLabelling ho hend
  exact ⟨G, f, c, hm, hl, hfinal⟩

end IsPassStart

section

variable {g : Game} {reference : Profile} {mesh : Rat} {leashLength : Nat}

/-- **No pass is a fault.**  Whatever the limits, a pass has an outcome, and in all
its states no position is out of range. -/
theorem runPass_isOk (h : IsPassStart g reference mesh leashLength) (incumbent : Incumbent)
    (limits : PassLimits) (clock : Clock) :
    (∃ o, runPass g reference mesh leashLength incumbent limits clock = .ok o)
      ∧ ∀ p ∈ passTrace g reference mesh leashLength incumbent limits clock, p.InRange := by
  constructor
  · obtain ⟨_, _, last, _, ending, _, _, hrun, _⟩ := h.exists_runPass incumbent limits clock
    exact ⟨last.outcome ending, hrun⟩
  · intro p hp
    obtain ⟨G, f, _, _, hf, hstart⟩ := h.exists_standsAt incumbent
    obtain ⟨n, hat, -⟩ := hstart.of_mem_trace hf limits clock hp
    exact hat.inRange

theorem runPass_isOk_heads :
    (∃ o, runPass ClassicGame.matchingPennies.game.toGame heads (1 / 9) 9 ⟨2, heads, 0⟩
        ⟨some 7, none⟩ .stopped = .ok o)
      ∧ ∀ p ∈ passTrace ClassicGame.matchingPennies.game.toGame heads (1 / 9) 9 ⟨2, heads, 0⟩
        ⟨some 7, none⟩ .stopped, p.InRange :=
  runPass_isOk isPassStart_heads _ _ _

/-- **Termination of a pass.**  Without limits, a pass evaluates finitely many labels,
none of them twice in the same configuration, and then it is fully labelled. -/
theorem runPass_fullyLabeled (h : IsPassStart g reference mesh leashLength)
    (incumbent : Incumbent) (clock : Clock) :
    ∃ o, runPass g reference mesh leashLength incumbent .none clock = .ok o
      ∧ o.ending = .fullyLabeled
      ∧ o.pivots = (passEvaluations g reference mesh leashLength incumbent .none clock).length
      ∧ ((passEvaluations g reference mesh leashLength incumbent .none clock).map
          Pass.configuration).Nodup := by
  obtain ⟨_, _, last, _, ending, _, _, hrun, _, hpivots, hend⟩ :=
    h.exists_runPass incumbent .none clock
  refine ⟨last.outcome ending, hrun, ?_, hpivots, ?_⟩
  · rcases hend with ⟨he, -⟩ | ⟨elapsed, hreached⟩
    · exact he
    · -- there is no limit to be reached
      cases hreached
  · obtain ⟨G, f, _, _, hf, hstart⟩ := h.exists_standsAt incumbent
    exact hstart.nodup_configurations hf .none clock

theorem runPass_fullyLabeled_heads :
    ∃ o, runPass ClassicGame.matchingPennies.game.toGame heads (1 / 9) 9 ⟨2, heads, 0⟩ .none
        .stopped = .ok o
      ∧ o.ending = .fullyLabeled
      ∧ o.pivots = (passEvaluations ClassicGame.matchingPennies.game.toGame heads (1 / 9) 9
          ⟨2, heads, 0⟩ .none .stopped).length
      ∧ ((passEvaluations ClassicGame.matchingPennies.game.toGame heads (1 / 9) 9 ⟨2, heads, 0⟩
          .none .stopped).map Pass.configuration).Nodup :=
  runPass_fullyLabeled isPassStart_heads _ _

/-- **Every vertex that is labelled is a profile on the grid.** -/
theorem isNormalized_of_mem_passEvaluations (h : IsPassStart g reference mesh leashLength)
    {incumbent : Incumbent} {limits : PassLimits} {clock : Clock} {p : Pass reference.shape}
    (hp : p ∈ passEvaluations g reference mesh leashLength incumbent limits clock) :
    p.profile.IsNormalized ∧ p.profile.IsOnGrid mesh := by
  obtain ⟨G, f, rfl, _, hf, hstart⟩ := h.exists_standsAt incumbent
  obtain ⟨hp, heval⟩ := List.mem_filter.mp hp
  obtain ⟨n, ⟨a, -, hst⟩, -⟩ := hstart.of_mem_trace hf limits clock hp
  rw [Pass.StandsAt.move_of_evaluates heval] at hst
  cases hst with
  | evaluate hpending =>
    rw [Pass.profile, hpending.current]
    exact ⟨Grid.isNormalized_vertex hpending.isOn.valid _, Grid.isOnGrid_point _⟩

theorem isNormalized_of_mem_passEvaluations_heads :
    ∃ p ∈ passEvaluations ClassicGame.matchingPennies.game.toGame heads (1 / 9) 9 ⟨2, heads, 0⟩
        .none .stopped,
      p.profile.values = [5 / 9, 4 / 9, 4 / 9, 5 / 9]
        ∧ p.profile.IsNormalized ∧ p.profile.IsOnGrid (1 / 9) := by
  obtain ⟨p, hp, hvalues⟩ : ∃ p ∈ passEvaluations ClassicGame.matchingPennies.game.toGame heads
      (1 / 9) 9 ⟨2, heads, 0⟩ .none .stopped,
      p.profile.values = [5 / 9, 4 / 9, 4 / 9, 5 / 9] := by
    decide +kernel
  exact ⟨p, hp, hvalues, isNormalized_of_mem_passEvaluations isPassStart_heads hp⟩

end

end SimplicialNash
