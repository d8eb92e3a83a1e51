/-
  SimplicialNash.Profile.Text
  ───────────────────────────
  Mixed profiles as text.

  A profile line is a label and the weights, player by player, with commas in
  between.  A line is read with or without its label, so an answer can be fed
  back as a starting point.  A file of starting points is read line by line;
  blank lines are passed over, and a bad line does not disturb the others.
-/
import SimplicialNash.Profile.Basic
import SimplicialNash.Number.Fixed
import SimplicialNash.Text.Blank
import SimplicialNash.Text.Lines

namespace SimplicialNash

open SimplicialNash.Text SimplicialNash.Number

/-! ## §1. Writing -/

/-- How a weight is written. -/
inductive WeightFormat where
  /-- As an exact rational. -/
  | exact
  /-- With a fixed count of decimals. -/
  | decimal (digits : Nat)
deriving DecidableEq, Repr

/-- A weight as text. -/
def WeightFormat.write (format : WeightFormat) (q : Rat) : List Char :=
  match format with
  | .exact => rationalText q
  | .decimal digits => fixedText digits q

namespace Profile

/-- The label, then each weight after a comma. -/
def lineChars (p : Profile) (label : List Char) (format : WeightFormat) : List Char :=
  label ++ p.values.flatMap fun w => ',' :: format.write w

/-- The profile as a line with a label. -/
def line (p : Profile) (label : String) (format : WeightFormat) : String :=
  String.ofList (p.lineChars label.toList format)

/-- A player's weights in parentheses. -/
def rowText (row : List Rat) : String :=
  "(" ++ ",".intercalate (row.map fun w => String.ofList (rationalText w)) ++ ")"

/-- Each player's weights in parentheses, with a space in between. -/
def text (p : Profile) : String := " ".intercalate (p.rows.map rowText)

/-! ## §2. Reading -/

/-- The fields that hold the weights: without the first one, if there is one
more than there are weights. -/
def weightFields (expected : Nat) (fs : List (List Char)) : List (List Char) :=
  if fs.length = expected + 1 then fs.drop 1 else fs

/-- The numbers that fields denote, or the first field that is none. -/
def readValues : List (List Char) → Except ProfileError (List Rat)
  | [] => .ok []
  | f :: rest =>
    match readRational f with
    | .error fault => .error (.fault fault)
    | .ok none => .error (.invalidValue (String.ofList f))
    | .ok (some q) =>
      match readValues rest with
      | .error e => .error e
      | .ok qs => .ok (q :: qs)

/-- The profile on a line. -/
def readLineChars (shape : Shape) (cs : List Char) : Except ProfileError Profile :=
  let expected := shape.size
  let fs := weightFields expected ((fields ',' (trim cs)).map trim)
  if fs.length = expected then
    match readValues fs with
    | .error e => .error e
    | .ok values => ofValues shape values
  else .error (.wrongLength expected fs.length)

/-- The profile on a line. -/
def readLine (shape : Shape) (text : String) : Except ProfileError Profile :=
  readLineChars shape text.toList

/-- The profile on each line that is not blank, with the line's number. -/
def readLines (shape : Shape) (text : String) :
    List (Nat × Except ProfileError Profile) :=
  ((lines text.toList).zipIdx.filter fun (l, _) => !isBlankText l).map
    fun (l, i) => (i + 1, readLineChars shape l)

end Profile

end SimplicialNash
