/-
  SimplicialNash.Proofs.Refinement.Stages
  ───────────────────────────────────────
  **The passes of a solve, in order.**

  `Solver.stages` lists the passes that a solve makes, whether it ends or not: where
  the solve stood before each pass, what was reported of it, and where the solve stood
  after it.  What holds at the beginning and is kept by every pass holds before and
  after each of them (`Solver.stages_induction`); the property may depend on the passes
  made so far.

  Only the last pass has a reason to stop (`stop?_eq_none_of_stagesFrom`), and a solve
  answers exactly if there is one; it reports its passes and answers with where the last
  of them has led (`Solver.solve_eq_ok_iff`).
-/
import Mathlib.Tactic.SplitIfs
import SimplicialNash.Refinement

namespace SimplicialNash

/-! ## §1. Valid settings -/

namespace Settings

variable {settings : Settings} {tolerance : Rat}

theorem of_toleranceBound_eq_ok (h : settings.toleranceBound = .ok tolerance) :
    settings.tolerance.toRat? = some tolerance ∧ 0 < tolerance := by
  unfold toleranceBound at h
  split at h
  · next q hq =>
    split at h
    · next hpos =>
      obtain rfl := Except.ok.inj h
      exact ⟨hq, hpos⟩
    · cases h
  · cases h

theorem of_error?_eq_none (h : settings.error? = none) :
    2 ≤ settings.gridResize.toNat ∧ 0 < settings.leashLength.toNat := by
  unfold error? at h
  split at h
  · cases h
  · next hresize =>
    split at h
    · cases h
    · next hleash =>
      constructor
      · exact Nat.not_lt.mp fun hlt => hresize (UInt32.lt_iff_toNat_lt.mpr hlt)
      · exact Nat.pos_of_ne_zero fun hzero => hleash (UInt32.toNat_inj.mp hzero)

end Settings

namespace Solver

variable {s : Solver} {g : Game} {settings : Settings} {clock : Clock} {start : Profile}
  {keepGoing : PassReport → Bool} {limit : Nat} {progress next : Progress} {r : PassReport}
  {reports : List PassReport} {a : Answer}

/-- A solver of a game with valid settings. -/
structure IsOf (g : Game) (settings : Settings) (s : Solver) : Prop where
  game_eq : s.game = g
  settings_eq : s.settings = settings
  toRat?_tolerance : settings.tolerance.toRat? = some s.tolerance
  tolerance_pos : 0 < s.tolerance
  two_le_resize : 2 ≤ settings.gridResize.toNat
  leash_pos : 0 < settings.leashLength.toNat

/-- A game has a solver exactly if the settings are valid. -/
theorem ofGame_eq_ok_iff :
    ofGame g settings = .ok s ↔ settings.error? = none
      ∧ settings.toleranceBound = .ok s.tolerance ∧ s.game = g ∧ s.settings = settings := by
  constructor
  · intro h
    unfold ofGame at h
    split at h
    · cases h
    · next herror =>
      split at h
      · next tolerance hbound =>
        obtain rfl := Except.ok.inj h
        exact ⟨herror, hbound, rfl, rfl⟩
      · cases h
  · rintro ⟨herror, hbound, rfl, rfl⟩
    unfold ofGame
    rw [herror, hbound]

theorem isOf_of_ofGame (h : ofGame g settings = .ok s) : IsOf g settings s := by
  obtain ⟨herror, hbound, hgame, hsettings⟩ := ofGame_eq_ok_iff.mp h
  obtain ⟨htolerance, hpos⟩ := Settings.of_toleranceBound_eq_ok hbound
  obtain ⟨hresize, hleash⟩ := Settings.of_error?_eq_none herror
  exact ⟨hgame, hsettings, htolerance, hpos, hresize, hleash⟩

theorem ofGame_eq_ok {tolerance : Rat} (herror : settings.error? = none)
    (hbound : settings.toleranceBound = .ok tolerance) (g : Game) :
    ofGame g settings = .ok ⟨g, settings, tolerance⟩ :=
  ofGame_eq_ok_iff.mpr ⟨herror, hbound, rfl, rfl⟩

/-! ## §2. Single passes -/

/-- **What a pass does.**  It walks from the incumbent on the next finer grid. -/
theorem nextPass_cases (h : s.nextPass clock progress = .ok (r, next)) :
    ∃ o, runPass s.game progress.incumbent.profile (s.nextMesh progress)
        s.settings.leashLength.toNat progress.incumbent s.limits clock = .ok o
      ∧ next = advance progress (s.nextMesh progress) o ∧ r = report next o := by
  obtain ⟨o, ho, hr⟩ := exists_of_bind_eq_ok h
  obtain ⟨rfl, rfl⟩ := Prod.mk.inj (Except.ok.inj hr)
  exact ⟨o, ho, rfl, rfl⟩

/-- **What is reported of a pass** is where it has led. -/
theorem report_of_nextPass (h : s.nextPass clock progress = .ok (r, next)) :
    r.pass = next.passes ∧ r.mesh = next.mesh ∧ r.regret = next.incumbent.regret
      ∧ r.profile = next.incumbent.profile := by
  obtain ⟨o, -, -, rfl⟩ := nextPass_cases h
  exact ⟨rfl, rfl, rfl, rfl⟩

theorem mesh_of_nextPass (h : s.nextPass clock progress = .ok (r, next)) :
    r.mesh = s.nextMesh progress := by
  obtain ⟨o, -, rfl, rfl⟩ := nextPass_cases h
  rfl

theorem nextPass_eq_ok {o : PassOutcome}
    (h : runPass s.game progress.incumbent.profile (s.nextMesh progress)
      s.settings.leashLength.toNat progress.incumbent s.limits clock = .ok o) :
    s.nextPass clock progress = .ok (report (advance progress (s.nextMesh progress) o) o,
      advance progress (s.nextMesh progress) o) := by
  show (runPass s.game progress.incumbent.profile (s.nextMesh progress)
    s.settings.leashLength.toNat progress.incumbent s.limits clock >>= _) = _
  rw [h, ok_bind]
  rfl

/-- **The tolerance comes first** among the reasons to stop. -/
theorem stop?_eq_converged_iff {keep : Bool} :
    s.stop? r keep = some .converged ↔ r.regret < s.tolerance := by
  unfold stop?
  by_cases hlt : r.regret < s.tolerance
  · rw [if_pos hlt]
    exact iff_of_true rfl hlt
  · rw [if_neg hlt]
    refine iff_of_false (fun h => ?_) hlt
    split_ifs at h <;> cases h

/-- Before a solve its start is the incumbent, at its own excess. -/
theorem begin_cases (h : s.begin start = .ok progress) :
    start.shape = s.game.shape ∧ progress.mesh = mkRat 1 start.denominatorLcm
      ∧ Incumbent.ofStart s.game start = .ok progress.incumbent ∧ progress.passes = 0
      ∧ progress.pivots = 0 := by
  unfold begin at h
  split at h
  · next hshape =>
    split at h
    · next incumbent hinc =>
      obtain rfl := Except.ok.inj h
      exact ⟨hshape, rfl, hinc, rfl, rfl⟩
    · cases h
  · cases h

/-! ## §3. The passes of a solve -/

/-- A pass of a solve: where the solve stood before it, what was reported of it, and
where the solve stood after it. -/
structure Stage where
  before : Progress
  report : PassReport
  after : Progress

/-- The profile at which a pass begins. -/
def Stage.reference (stage : Stage) : Profile := stage.before.incumbent.profile

/-- The passes, at most `limit` of them, that a solve makes from where it stands. -/
def stagesFrom (s : Solver) (clock : Clock) (keepGoing : PassReport → Bool) :
    (limit : Nat) → Progress → List Stage
  | 0, _ => []
  | limit + 1, progress =>
    match s.nextPass clock progress with
    | .error _ => []
    | .ok (r, next) =>
      ⟨progress, r, next⟩ :: match s.stop? r (keepGoing r) with
        | some _ => []
        | none => stagesFrom s clock keepGoing limit next

/-- The passes, at most `limit` of them, that a solve makes. -/
def stages (s : Solver) (start : Profile) (clock : Clock) (keepGoing : PassReport → Bool)
    (limit : Nat) : List Stage :=
  match s.begin start with
  | .error _ => []
  | .ok progress => s.stagesFrom clock keepGoing limit progress

/-- After the first pass the others follow. -/
theorem stagesFrom_succ (h : s.nextPass clock progress = .ok (r, next)) (limit : Nat) :
    s.stagesFrom clock keepGoing (limit + 1) progress
      = ⟨progress, r, next⟩ :: match s.stop? r (keepGoing r) with
        | some _ => []
        | none => s.stagesFrom clock keepGoing limit next := by
  rw [stagesFrom, h]

/-- What every pass keeps holds before and after each pass. -/
theorem stagesFrom_induction {motive : List Stage → Progress → Prop} {done rest : List Stage}
    {stage : Stage} (hbegin : motive [] progress)
    (hnext : ∀ done progress r next, motive done progress →
      s.nextPass clock progress = .ok (r, next) → motive (done ++ [⟨progress, r, next⟩]) next)
    (h : s.stagesFrom clock keepGoing limit progress = done ++ stage :: rest) :
    s.nextPass clock stage.before = .ok (stage.report, stage.after)
      ∧ motive done stage.before ∧ motive (done ++ [stage]) stage.after := by
  induction limit generalizing progress motive done with
  | zero => simp [stagesFrom] at h
  | succ limit ih =>
    cases hpass : s.nextPass clock progress with
    | error fault => simp [stagesFrom, hpass] at h
    | ok result =>
      obtain ⟨r, next⟩ := result
      have hfirst := hnext [] progress r next hbegin hpass
      rw [stagesFrom_succ hpass] at h
      cases done with
      | nil =>
        obtain ⟨rfl, -⟩ := List.cons.inj h
        exact ⟨hpass, hbegin, hfirst⟩
      | cons first done =>
        -- the property is that of the passes after the first
        obtain ⟨rfl, htail⟩ := List.cons.inj h
        cases hstop : s.stop? r (keepGoing r) with
        | some reason => simp [hstop] at htail
        | none =>
          rw [hstop] at htail
          exact ih (motive := fun done => motive (_ :: done)) hfirst
            (fun done => hnext (_ :: done)) htail

/-- **What holds at the beginning and is kept by every pass** holds before and after
each pass of a solve. -/
theorem stages_induction {motive : List Stage → Progress → Prop} {done rest : List Stage}
    {stage : Stage} (hbegin : ∀ progress, s.begin start = .ok progress → motive [] progress)
    (hnext : ∀ done progress r next, motive done progress →
      s.nextPass clock progress = .ok (r, next) → motive (done ++ [⟨progress, r, next⟩]) next)
    (h : s.stages start clock keepGoing limit = done ++ stage :: rest) :
    s.nextPass clock stage.before = .ok (stage.report, stage.after)
      ∧ motive done stage.before ∧ motive (done ++ [stage]) stage.after := by
  unfold stages at h
  split at h
  · simp at h
  · next progress hprogress => exact stagesFrom_induction (hbegin progress hprogress) hnext h

theorem nextPass_of_stages {done rest : List Stage} {stage : Stage}
    (h : s.stages start clock keepGoing limit = done ++ stage :: rest) :
    s.nextPass clock stage.before = .ok (stage.report, stage.after) :=
  (stages_induction (motive := fun _ _ => True) (fun _ _ => trivial) (fun _ _ _ _ _ _ => trivial)
    h).1

/-- What is reported of a pass of a solve is where it has led. -/
theorem report_of_stages {done rest : List Stage} {stage : Stage}
    (h : s.stages start clock keepGoing limit = done ++ stage :: rest) :
    stage.report.pass = stage.after.passes ∧ stage.report.mesh = stage.after.mesh
      ∧ stage.report.regret = stage.after.incumbent.regret
      ∧ stage.report.profile = stage.after.incumbent.profile :=
  report_of_nextPass (nextPass_of_stages h)

/-- **Passes follow on each other**: where one has led, the next begins. -/
theorem before_eq_after {done rest : List Stage} {stage stage' : Stage}
    (h : s.stages start clock keepGoing limit = done ++ stage :: stage' :: rest) :
    stage'.before = stage.after := by
  have h' := h.trans (List.append_cons done stage (stage' :: rest))
  obtain ⟨-, hlast, -⟩ := stages_induction
    (motive := fun done progress => ∀ last, done.getLast? = some last → progress = last.after)
    (by simp) (by simp) h'
  exact hlast stage (by simp)

/-- **Only the last pass stops a solve.** -/
theorem stop?_eq_none_of_stagesFrom {done rest : List Stage} {stage stage' : Stage}
    (h : s.stagesFrom clock keepGoing limit progress = done ++ stage :: stage' :: rest) :
    s.stop? stage.report (keepGoing stage.report) = none := by
  induction limit generalizing progress done with
  | zero => simp [stagesFrom] at h
  | succ limit ih =>
    cases hpass : s.nextPass clock progress with
    | error fault => simp [stagesFrom, hpass] at h
    | ok result =>
      obtain ⟨r, next⟩ := result
      rw [stagesFrom_succ hpass] at h
      cases hstop : s.stop? r (keepGoing r) with
      | some reason =>
        -- the list has one entry only
        rw [hstop] at h
        have := congrArg List.length h
        simp at this
        omega
      | none =>
        rw [hstop] at h
        cases done with
        | nil =>
          obtain ⟨rfl, -⟩ := List.cons.inj h
          exact hstop
        | cons first done => exact ih (List.cons.inj h).2

/-- If the pass with a certain number has a reason to stop, there are no more passes. -/
theorem length_stages_le {n : Nat}
    (hstop : ∀ done stage rest, s.stages start clock keepGoing limit = done ++ stage :: rest →
      done.length = n → s.stop? stage.report (keepGoing stage.report) ≠ none) :
    (s.stages start clock keepGoing limit).length ≤ n + 1 := by
  generalize hall : s.stages start clock keepGoing limit = all at hstop ⊢
  refine Nat.le_of_not_lt fun hlong => ?_
  have hn : n < all.length := Nat.lt_of_succ_lt hlong
  have hsplit : all = all.take n ++ all[n] :: all[n + 1] :: all.drop (n + 1 + 1) := by
    rw [List.getElem_cons_drop, List.getElem_cons_drop, List.take_append_drop]
  refine hstop _ _ _ hsplit (List.length_take_of_le (Nat.le_of_lt hn)) ?_
  unfold stages at hall
  split at hall
  · simp [← hall] at hlong
  · exact stop?_eq_none_of_stagesFrom (hall.trans hsplit)

/-- **Passes go on until one of them stops the solve**, if none of them is a fault. -/
theorem exists_stop_of_length_stagesFrom_lt {motive : Progress → Prop} (hbegin : motive progress)
    (hpass : ∀ progress, motive progress →
      ∃ r next, s.nextPass clock progress = .ok (r, next) ∧ motive next)
    (hlength : (s.stagesFrom clock keepGoing limit progress).length < limit) :
    ∃ done last reason, s.stagesFrom clock keepGoing limit progress = done ++ [last]
      ∧ s.stop? last.report (keepGoing last.report) = some reason := by
  induction limit generalizing progress with
  | zero => exact absurd hlength (Nat.not_lt_zero _)
  | succ limit ih =>
    obtain ⟨r, next, hfirst, hnext⟩ := hpass progress hbegin
    rw [stagesFrom_succ hfirst] at hlength ⊢
    cases hstop : s.stop? r (keepGoing r) with
    | some reason => exact ⟨[], ⟨progress, r, next⟩, reason, rfl, hstop⟩
    | none =>
      rw [hstop] at hlength
      obtain ⟨done, last, reason, hdone, hlast⟩ := ih hnext (Nat.lt_of_succ_lt_succ hlength)
      exact ⟨⟨progress, r, next⟩ :: done, last, reason, congrArg (_ :: ·) hdone, hlast⟩

/-! ## §4. Answers -/

/-- **Refinement answers exactly if a pass stops it.**  It reports its passes and answers
with where the last one has led. -/
theorem refine_eq_ok_iff :
    s.refine clock keepGoing limit progress = .ok (reports, a)
      ↔ ∃ done last reason, s.stagesFrom clock keepGoing limit progress = done ++ [last]
        ∧ s.stop? last.report (keepGoing last.report) = some reason
        ∧ reports = (done ++ [last]).map Stage.report ∧ a = answer last.after reason := by
  induction limit generalizing progress reports with
  | zero => simp [refine, stagesFrom]
  | succ limit ih =>
    cases hpass : s.nextPass clock progress with
    | error fault => simp [refine, stagesFrom, hpass]
    | ok result =>
      obtain ⟨r, next⟩ := result
      rw [refine, hpass, stagesFrom_succ hpass]
      dsimp only
      cases hstop : s.stop? r (keepGoing r) with
      | some reason =>
        constructor
        · intro h
          obtain ⟨rfl, rfl⟩ := Prod.mk.inj (Except.ok.inj h)
          exact ⟨[], ⟨progress, r, next⟩, reason, rfl, hstop, rfl, rfl⟩
        · rintro ⟨done, last, reason', hdone, hlast, rfl, rfl⟩
          obtain ⟨rfl, hsingle⟩ := List.append_eq_singleton_iff.mp hdone.symm |>.resolve_right
            (by simp)
          obtain rfl := List.singleton_inj.mp hsingle
          rw [hstop] at hlast
          obtain rfl := Option.some.inj hlast
          rfl
      | none =>
        constructor
        · intro h
          dsimp only at h
          split at h
          · cases h
          · next others a' hrest =>
            obtain ⟨rfl, rfl⟩ := Prod.mk.inj (Except.ok.inj h)
            obtain ⟨done, last, reason, hdone, hlast, rfl, ha⟩ := ih.mp hrest
            exact ⟨⟨progress, r, next⟩ :: done, last, reason, congrArg (_ :: ·) hdone, hlast,
              rfl, ha⟩
        · rintro ⟨done, last, reason, hdone, hlast, rfl, rfl⟩
          cases done with
          | nil =>
            -- the only pass does not stop the solve
            obtain ⟨rfl, -⟩ := List.cons.inj hdone
            rw [hstop] at hlast
            cases hlast
          | cons first done =>
            obtain ⟨rfl, hrest⟩ := List.cons.inj hdone
            rw [ih.mpr ⟨done, last, reason, hrest, hlast, rfl, rfl⟩]
            rfl

theorem solve_eq_ok_of_begin (h : s.begin start = .ok progress) :
    s.solve start clock keepGoing = .ok (reports, a)
      ↔ s.refine clock keepGoing maxPasses progress = .ok (reports, a) := by
  unfold solve
  rw [h, ok_bind]
  cases s.refine clock keepGoing maxPasses progress with
  | error fault => simp
  | ok result => simp

/-- **A solve answers exactly if a pass stops it.**  It reports its passes and answers
with where the last one has led. -/
theorem solve_eq_ok_iff :
    s.solve start clock keepGoing = .ok (reports, a)
      ↔ ∃ done last reason, s.stages start clock keepGoing maxPasses = done ++ [last]
        ∧ s.stop? last.report (keepGoing last.report) = some reason
        ∧ reports = (done ++ [last]).map Stage.report ∧ a = answer last.after reason := by
  cases hbegin : s.begin start with
  | error e => simp [solve, stages, hbegin, bind, Except.bind]
  | ok progress =>
    rw [solve_eq_ok_of_begin hbegin, refine_eq_ok_iff, stages, hbegin]

/-- A solve that answers reports all its passes. -/
theorem reports_eq_map (h : s.solve start clock keepGoing = .ok (reports, a)) :
    reports = (s.stages start clock keepGoing maxPasses).map Stage.report := by
  obtain ⟨done, last, reason, hstages, -, hreports, -⟩ := solve_eq_ok_iff.mp h
  rw [hstages, hreports]

end Solver

end SimplicialNash
