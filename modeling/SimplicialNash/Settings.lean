/-
  SimplicialNash.Settings
  ───────────────────────
  The settings of a solve, and what can be wrong with them.

  Counts are machine words, and the tolerance and the time limit are binary64
  numbers, as a caller or a file gives them.  `Settings.error?` names the first
  defect, in the order of the fields.
-/
import SimplicialNash.Number.Shortest

namespace SimplicialNash

open SimplicialNash.Number

/-! ## §1. Settings -/

/-- The settings of a solve. -/
structure Settings where
  /-- By what the mesh is divided before every pass. -/
  gridResize : UInt32
  /-- How many grid steps a weight may fall below that of the reference vertex. -/
  leashLength : UInt32
  /-- Refinement stops when the excess is below this. -/
  tolerance : Binary64
  /-- How many labels a pass may evaluate. -/
  maxPivots : Option UInt64
  /-- How many passes there may be. -/
  maxRefinements : Option UInt32
  /-- The time for the whole solve, in seconds. -/
  timeLimit : Option Binary64
deriving DecidableEq, Repr

namespace Settings

/-- One ten-billionth, rounded to the nearest binary64 number. -/
def defaultTolerance : Binary64 := Binary64.ofRat (mkRat 1 (tenTo 10))

/-- Halved meshes, a leash of 32000 steps, no limits. -/
def default : Settings where
  gridResize := 2
  leashLength := 32000
  tolerance := defaultTolerance
  maxPivots := none
  maxRefinements := none
  timeLimit := none

/-- The default with limits on passes and on labels per pass, for runs over
many starts of which none may hold up the others. -/
def bounded : Settings :=
  { default with maxPivots := some 1000000, maxRefinements := some 64 }

end Settings

/-! ## §2. Defects -/

/-- Which of the two counts is limited to nothing. -/
inductive CountLimit where
  | pivotsPerPass
  | refinements
deriving DecidableEq, Repr

/-- The field that holds the limit. -/
def CountLimit.name : CountLimit → String
  | .pivotsPerPass => "max_pivots_per_pass"
  | .refinements => "max_refinements"

/-- Why settings are not valid. -/
inductive SettingsError where
  /-- The mesh would not shrink. -/
  | gridResize (value : UInt32)
  /-- The leash has no length. -/
  | leashLength
  /-- The tolerance is not a positive number. -/
  | tolerance (value : Binary64)
  /-- A count is limited to nothing. -/
  | limit (which : CountLimit)
  /-- The time is not a positive number of seconds below `2 ^ 64`. -/
  | timeLimit (value : Binary64)
deriving DecidableEq, Repr

/-- What is said of a defect. -/
def SettingsError.message : SettingsError → String
  | .gridResize value =>
    "Grid resize factor " ++ numeral value.toNat ++ " must be at least 2"
  | .leashLength => "Leash length must be at least 1"
  | .tolerance value =>
    "Tolerance " ++ String.ofList value.messageText ++ " must be positive and finite"
  | .limit which => which.name ++ " must be at least 1"
  | .timeLimit value =>
    "Time limit " ++ String.ofList value.messageText ++ "s must be positive and finite"

namespace Settings

/-! ## §3. Validity -/

/-- The tolerance as the rational that it denotes. -/
def toleranceBound (s : Settings) : Except SettingsError Rat :=
  match s.tolerance.toRat? with
  | some q => if 0 < q then .ok q else .error (.tolerance s.tolerance)
  | none => .error (.tolerance s.tolerance)

/-- A time in seconds as whole nanoseconds, rounded to the nearest, if it is
positive and below `2 ^ 64` seconds. -/
def nanoseconds? (seconds : Binary64) : Option Nat :=
  match seconds.toRat? with
  | some q =>
    if 0 < q ∧ q < UInt64.size then
      some (divNearest .toEven (q.num.natAbs * tenTo 9) q.den)
    else none
  | none => none

/-- What is wrong with the settings, if anything. -/
def error? (s : Settings) : Option SettingsError :=
  if s.gridResize < 2 then some (.gridResize s.gridResize)
  else if s.leashLength = 0 then some .leashLength
  else
    match s.toleranceBound with
    | .error e => some e
    | .ok _ =>
      if s.maxPivots = some 0 then some (.limit .pivotsPerPass)
      else if s.maxRefinements = some 0 then some (.limit .refinements)
      else
        match s.timeLimit with
        | none => none
        | some seconds =>
          if (nanoseconds? seconds).isSome then none else some (.timeLimit seconds)

end Settings

end SimplicialNash
