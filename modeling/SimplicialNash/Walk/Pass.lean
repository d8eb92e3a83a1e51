/-
  SimplicialNash.Walk.Pass
  ────────────────────────
  One walk on one grid, from its start to its end.

  A pass evaluates labels until the walk is finished or a limit is reached.
  The limits are looked at before every evaluation, the count of evaluations
  first and the time after it.  The time comes from a clock, a function from
  the number of labels evaluated so far in the whole solve to the nanoseconds
  gone by, so that a pass is a function of its arguments.

  `Pass.step` makes one move; `runPass` makes moves until the pass ends.  There
  are finitely many configurations of path, labels, flags and ledger, and a
  walk that comes back to one has no end; `configurationBound` is above their
  number, and a pass that makes more moves is given up.
-/
import SimplicialNash.Deviation
import SimplicialNash.Walk.Move

namespace SimplicialNash

/-! ## §1. Limits -/

/-- Nanoseconds gone by, at each count of labels evaluated. -/
abbrev Clock := Nat → Nat

/-- The clock that stands still at its first moment. -/
def Clock.stopped : Clock := fun _ => 0

/-- Why a pass ends. -/
inductive PassEnd where
  /-- The walk is finished. -/
  | fullyLabeled
  /-- The pass has evaluated as many labels as it may. -/
  | pivotLimit
  /-- The time is up. -/
  | deadline
deriving DecidableEq, Repr

/-- The limits of a pass. -/
structure PassLimits where
  /-- How many labels the pass may evaluate. -/
  maxPivots : Option Nat
  /-- The moment, in nanoseconds, at which the time is up. -/
  deadline : Option Nat
deriving DecidableEq, Repr

namespace PassLimits

/-- No limits. -/
def none : PassLimits := ⟨Option.none, Option.none⟩

/-- The limit that is reached, if one is. -/
def reached? (limits : PassLimits) (pivots elapsed : Nat) : Option PassEnd :=
  if limits.maxPivots.any fun limit => limit ≤ pivots then some .pivotLimit
  else if limits.deadline.any fun moment => moment ≤ elapsed then some .deadline
  else Option.none

end PassLimits

/-! ## §2. Moves of a pass -/

/-- A pass under way. -/
structure Pass (shape : Shape) where
  simplex : Simplex shape
  /-- What the walk does next. -/
  move : Move shape
  incumbent : Incumbent
  /-- The labels evaluated in this pass. -/
  pivots : Nat
deriving DecidableEq

/-- What has come of a pass. -/
structure PassOutcome where
  ending : PassEnd
  /-- The labels evaluated in this pass. -/
  pivots : Nat
  incumbent : Incumbent
deriving DecidableEq

namespace Pass

variable {shape : Shape}

/-- The pass before its first move. -/
def start (reference : Point shape) (mesh : Rat) (leashLength : Nat) (incumbent : Incumbent) :
    Pass shape :=
  ⟨.start reference mesh leashLength, .evaluate, incumbent, 0⟩

/-- The vertex that the pass looks at, as a profile. -/
def profile (pass : Pass shape) : Profile := ⟨shape, pass.simplex.current⟩

/-- The outcome if the pass ends here. -/
def outcome (pass : Pass shape) (ending : PassEnd) : PassOutcome :=
  ⟨ending, pass.pivots, pass.incumbent⟩

/-- The vertex that is looked at is labelled. -/
def evaluate (g : Game) (pass : Pass shape) : Except Fault (Pass shape) := do
  let (d, incumbent) ← pass.incumbent.label g pass.profile
  let (simplex, move) ← pass.simplex.receive d.label
  return ⟨simplex, move, incumbent, pass.pivots + 1⟩

/-- One move, or the end of the pass. -/
def step (g : Game) (limits : PassLimits) (elapsed : Nat) (pass : Pass shape) :
    Except Fault (PassOutcome ⊕ Pass shape) :=
  match pass.move with
  | .finish => .ok (.inl (pass.outcome .fullyLabeled))
  | .evaluate =>
    match limits.reached? pass.pivots elapsed with
    | some ending => .ok (.inl (pass.outcome ending))
    | none => do return .inr (← pass.evaluate g)
  | move => do
    let (simplex, move) ← pass.simplex.step move
    return .inr { pass with simplex := simplex, move := move }

/-- At most `fuel` moves. -/
def run (g : Game) (limits : PassLimits) (clock : Clock) :
    (fuel : Nat) → Pass shape → Except Fault PassOutcome
  | 0, _ => .error .endless
  | fuel + 1, pass =>
    match pass.step g limits (clock pass.incumbent.evaluations) with
    | .error fault => .error fault
    | .ok (.inl outcome) => .ok outcome
    | .ok (.inr next) => run g limits clock fuel next

end Pass

/-! ## §3. Whole passes -/

/-- A number above that of the moves which a walk can make without coming back
to a configuration: paths and label lists over `size` labels, places in them,
flags, ledger counts in the range of machine words or of the leash, and the
moves between two evaluations. -/
def configurationBound (size leashLength : Nat) : Nat :=
  let paths := Nat.pow (size + 2) (size + 1)
  let ledgers := Nat.pow (UInt64.size + size * leashLength + 1) size
  paths * paths * (size + 2) * Nat.pow 4 size * ledgers * (2 * size + 4)

/-- The pass from a reference profile at a mesh. -/
def runPass (g : Game) (reference : Profile) (mesh : Rat) (leashLength : Nat)
    (incumbent : Incumbent) (limits : PassLimits) (clock : Clock) :
    Except Fault PassOutcome :=
  (Pass.start reference.weights mesh leashLength incumbent).run g limits clock
    (configurationBound reference.shape.size leashLength)

end SimplicialNash
