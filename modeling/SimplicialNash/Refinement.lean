/-
  SimplicialNash.Refinement
  ─────────────────────────
  The solver: passes on finer and finer grids.

  The first mesh is one over the common denominator of the start, divided by
  the resize factor; every later pass divides it again.  Each pass begins at
  the best profile seen so far.  Refinement stops when the excess of that
  profile is below the tolerance, when the time is up, when the caller has
  seen enough, or after as many passes as there may be; of several reasons
  the first in this order counts.

  Main definitions: `Solver.ofGame`, `Solver.nextPass`, `Solver.solve`.
-/
import SimplicialNash.Number.Literal
import SimplicialNash.Settings
import SimplicialNash.Walk.Pass

namespace SimplicialNash

/-! ## §1. Solvers and what they report -/

/-- A game with valid settings. -/
structure Solver where
  game : Game
  settings : Settings
  /-- The tolerance as an exact number. -/
  tolerance : Rat

/-- What is reported of a pass. -/
structure PassReport where
  /-- The number of the pass, counted from one. -/
  pass : Nat
  mesh : Rat
  /-- The smallest excess seen so far. -/
  regret : Rat
  /-- The best profile seen so far, at which the next pass begins. -/
  profile : Profile
  /-- The labels evaluated in this pass. -/
  pivots : Nat
  ending : PassEnd
deriving DecidableEq

/-- Why refinement stops. -/
inductive StopReason where
  /-- The excess is below the tolerance. -/
  | converged
  /-- The time is up. -/
  | deadline
  /-- The caller wants no further pass. -/
  | caller
  /-- There have been as many passes as there may be. -/
  | passLimit
deriving DecidableEq, Repr

/-- The answer of a solve. -/
structure Answer where
  profile : Profile
  /-- The excess of the profile. -/
  regret : Rat
  passes : Nat
  /-- The labels evaluated in all passes. -/
  pivots : Nat
  finalMesh : Rat
  stop : StopReason
deriving DecidableEq

/-- Whether the excess of the answer is below the tolerance. -/
def Answer.converged (a : Answer) : Bool := a.stop == .converged

/-- Why a solve gives no answer. -/
inductive SolveError where
  /-- The start is no profile of the game. -/
  | start (e : ProfileError)
  | fault (f : Fault)
deriving DecidableEq

/-- Where a solve stands between two passes. -/
structure Progress where
  mesh : Rat
  incumbent : Incumbent
  passes : Nat
  /-- The labels evaluated in all passes. -/
  pivots : Nat
deriving DecidableEq

namespace Solver

/-! ## §2. Single passes -/

/-- The solver of a game, if the settings are valid. -/
def ofGame (g : Game) (s : Settings) : Except SettingsError Solver :=
  match s.error? with
  | some e => .error e
  | none =>
    match s.toleranceBound with
    | .ok tolerance => .ok ⟨g, s, tolerance⟩
    | .error e => .error e

/-- The limits of every pass. -/
def limits (s : Solver) : PassLimits where
  maxPivots := s.settings.maxPivots.map UInt64.toNat
  deadline := s.settings.timeLimit.bind Settings.nanoseconds?

/-- The solve before its first pass. -/
def begin (s : Solver) (start : Profile) : Except SolveError Progress :=
  if start.shape = s.game.shape then
    match Incumbent.ofStart s.game start with
    | .ok incumbent => .ok ⟨mkRat 1 start.denominatorLcm, incumbent, 0, 0⟩
    | .error f => .error (.fault f)
  else .error (.start (.shapeMismatch s.game.shape start.shape))

/-- The mesh of the next pass. -/
def nextMesh (s : Solver) (progress : Progress) : Rat :=
  progress.mesh / (s.settings.gridResize.toNat : Rat)

/-- The progress made by a pass at a mesh. -/
def advance (progress : Progress) (mesh : Rat) (outcome : PassOutcome) : Progress where
  mesh := mesh
  incumbent := outcome.incumbent
  passes := progress.passes + 1
  pivots := progress.pivots + outcome.pivots

/-- What is reported of the pass that has led to a progress. -/
def report (progress : Progress) (outcome : PassOutcome) : PassReport where
  pass := progress.passes
  mesh := progress.mesh
  regret := progress.incumbent.regret
  profile := progress.incumbent.profile
  pivots := outcome.pivots
  ending := outcome.ending

/-- The next pass: what is reported of it, and the progress made. -/
def nextPass (s : Solver) (clock : Clock) (progress : Progress) :
    Except Fault (PassReport × Progress) := do
  let mesh := s.nextMesh progress
  let outcome ← runPass s.game progress.incumbent.profile mesh
    s.settings.leashLength.toNat progress.incumbent s.limits clock
  let progress := advance progress mesh outcome
  return (report progress outcome, progress)

/-- Why there is no further pass after the one reported, if there is none. -/
def stop? (s : Solver) (r : PassReport) (keepGoing : Bool) : Option StopReason :=
  if r.regret < s.tolerance then some .converged
  else if r.ending = .deadline then some .deadline
  else if !keepGoing then some .caller
  else if s.settings.maxRefinements.any fun limit => limit.toNat ≤ r.pass then some .passLimit
  else none

/-- The answer if refinement stops here. -/
def answer (progress : Progress) (reason : StopReason) : Answer where
  profile := progress.incumbent.profile
  regret := progress.incumbent.regret
  passes := progress.passes
  pivots := progress.pivots
  finalMesh := progress.mesh
  stop := reason

/-! ## §3. Whole solves -/

/-- How many passes are counted: passes are numbered by 32-bit words. -/
def maxPasses : Nat := UInt32.size - 1

/-- At most `fuel` passes: what is reported of each, and the answer. -/
def refine (s : Solver) (clock : Clock) (keepGoing : PassReport → Bool) :
    (fuel : Nat) → Progress → Except Fault (List PassReport × Answer)
  | 0, _ => .error .endless
  | fuel + 1, progress =>
    match s.nextPass clock progress with
    | .error fault => .error fault
    | .ok (r, next) =>
      match s.stop? r (keepGoing r) with
      | some reason => .ok ([r], answer next reason)
      | none =>
        match refine s clock keepGoing fuel next with
        | .error fault => .error fault
        | .ok (reports, a) => .ok (r :: reports, a)

/-- The solve from a start.  After every pass the caller says whether to go on. -/
def solve (s : Solver) (start : Profile) (clock : Clock) (keepGoing : PassReport → Bool) :
    Except SolveError (List PassReport × Answer) := do
  let progress ← s.begin start
  match s.refine clock keepGoing maxPasses progress with
  | .ok result => .ok result
  | .error fault => .error (.fault fault)

end Solver

/-- What is warned of when refinement stops short of the tolerance. -/
def Answer.warning? (a : Answer) : Option String :=
  let passes := Number.numeral a.passes
  match a.stop with
  | .converged => none
  | .deadline => some ("time limit reached after " ++ passes ++ " passes")
  | .caller => some ("refinement stopped by caller after " ++ passes ++ " passes")
  | .passLimit => some ("refinement limit reached after " ++ passes ++ " passes")

end SimplicialNash
