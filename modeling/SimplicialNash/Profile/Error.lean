/-
  SimplicialNash.Profile.Error
  ────────────────────────────
  What can be wrong with the data of a mixed profile, and its wording.
-/
import SimplicialNash.Fault
import SimplicialNash.Label
import SimplicialNash.Number.Literal

namespace SimplicialNash

open SimplicialNash.Number (numeral rationalText)

/-- Why data are not a mixed profile.  Players and strategies count from zero. -/
inductive ProfileError where
  /-- There are no players, or a player has no strategies. -/
  | invalidShape (shape : Shape)
  /-- There are more or fewer values than labels. -/
  | wrongLength (expected actual : Nat)
  /-- A field is no rational number. -/
  | invalidValue (text : String)
  /-- A weight is below zero. -/
  | negativeWeight (player strategy : Nat)
  /-- A player's weights do not add up to one. -/
  | notNormalized (player : Nat) (total : Rat)
  /-- The profile is one of another game. -/
  | shapeMismatch (expected actual : Shape)
  /-- Whether a field is a number cannot be answered. -/
  | fault (fault : Fault)
deriving DecidableEq, Repr

/-- A shape as it is shown: its counts in brackets. -/
def Shape.text (shape : Shape) : String :=
  "[" ++ ", ".intercalate (shape.map numeral) ++ "]"

/-- What is said of an error; players and strategies are counted from one. -/
def ProfileError.message : ProfileError → String
  | .invalidShape shape => "invalid profile shape " ++ shape.text
  | .wrongLength expected actual =>
    "expected " ++ numeral expected ++ " values, found " ++ numeral actual
  | .invalidValue text => "'" ++ text ++ "' is not a rational number"
  | .negativeWeight player strategy =>
    "player " ++ numeral (player + 1) ++ " strategy " ++ numeral (strategy + 1)
      ++ " has negative weight"
  | .notNormalized player total =>
    "player " ++ numeral (player + 1) ++ " weights sum to "
      ++ String.ofList (rationalText total) ++ ", not 1"
  | .shapeMismatch expected actual =>
    "profile shape " ++ actual.text ++ " does not match game shape " ++ expected.text
  | .fault f => f.message?.getD ""

end SimplicialNash
