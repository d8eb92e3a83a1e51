/-
  SimplicialNash.Cli.Transcript
  ─────────────────────────────
  What is written in the course of a run.

  A run writes on the output and on the error stream, and a fault may cut it
  short.  The parts of a run are put one after another; what would come after
  a fault is not written.  The two streams are texts and not lists of lines,
  because a record may lack its line end.
-/
import SimplicialNash.Cli.Record
import SimplicialNash.Fault

namespace SimplicialNash.Cli

/-- What is written in the course of a run. -/
structure Transcript where
  /-- The text on the output. -/
  output : String
  /-- The text on the error stream. -/
  notices : String
  /-- Whether a fault has cut the run short. -/
  isCut : Bool
deriving DecidableEq, Repr

namespace Transcript

/-- Nothing is written. -/
def empty : Transcript := ⟨"", "", false⟩

/-- A text with a line end. -/
def ended (line : String) : String := line ++ "\n"

/-- A line on the output. -/
def ofLine (line : String) : Transcript := ⟨ended line, "", false⟩

/-- A line on the error stream. -/
def ofNotice (line : String) : Transcript := ⟨"", ended line, false⟩

/-- A record on the error stream. -/
def ofRecord (r : Record) : Transcript := ⟨"", r.text, false⟩

/-- The end of a run by a fault. -/
def ofFault (f : Fault) : Transcript := ⟨"", (f.message?.map ended).getD "", true⟩

/-- One part of a run after another. -/
def andThen (a b : Transcript) : Transcript :=
  if a.isCut then a else ⟨a.output ++ b.output, a.notices ++ b.notices, b.isCut⟩

/-- All parts of a run, one after another. -/
def all (parts : List Transcript) : Transcript := parts.foldr andThen empty

/-- Nothing comes after a fault. -/
theorem andThen_of_isCut {a : Transcript} (b : Transcript) (h : a.isCut = true) :
    a.andThen b = a := by
  simp [andThen, h]

@[simp] theorem empty_andThen (a : Transcript) : empty.andThen a = a := by
  simp [andThen, empty]

@[simp] theorem andThen_empty (a : Transcript) : a.andThen empty = a := by
  cases a with
  | mk output notices isCut => cases isCut <;> simp [andThen, empty]

/-- It does not matter how the parts of a run are grouped. -/
theorem andThen_assoc (a b c : Transcript) :
    (a.andThen b).andThen c = a.andThen (b.andThen c) := by
  cases a with
  | mk output notices isCut =>
    cases isCut
    · cases b with
      | mk output notices isCut => cases isCut <;> simp [andThen, String.append_assoc]
    · simp [andThen]

end Transcript

end SimplicialNash.Cli
