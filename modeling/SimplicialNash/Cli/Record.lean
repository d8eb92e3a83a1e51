/-
  SimplicialNash.Cli.Record
  ─────────────────────────
  Records for the error stream.

  A record names how much it matters and the part of the program that speaks,
  in brackets, and then its message.  Further lines of the message are
  indented, and a terminal that shows the record obeys nothing in it: names of
  files and their contents may stand in a message as they are.
-/
import SimplicialNash.Text.Terminal

namespace SimplicialNash.Cli

open SimplicialNash.Text

/-- How much a record matters. -/
inductive Severity where
  | info
  | warning
  | error
deriving DecidableEq, Repr

/-- The name of a severity; all are of one width. -/
def Severity.text : Severity → String
  | .info => "INFO "
  | .warning => "WARN "
  | .error => "ERROR"

/-- What is to be said on the error stream. -/
structure Record where
  severity : Severity
  /-- The part of the program that speaks. -/
  origin : String
  message : String
deriving DecidableEq, Repr

namespace Record

/-- A text whose lines after the first are indented by four spaces. -/
def indented (cs : List Char) : List Char :=
  cs.flatMap fun c => if c = '\n' then c :: List.replicate 4 ' ' else [c]

/-- The record before it is made safe for a terminal. -/
def rawChars (r : Record) : List Char :=
  "[".toList ++ r.severity.text.toList ++ " ".toList ++ r.origin.toList ++ "] ".toList
    ++ indented r.message.toList ++ ['\n']

/-- The record as it is written, its end of line included. -/
def text (r : Record) : String := String.ofList (Terminal.visible r.rawChars)

/-- Nothing in a written record is obeyed by a terminal. -/
theorem isShown_of_mem_text {r : Record} {c : Char} (h : c ∈ r.text.toList) :
    Terminal.isShown c = true := by
  rw [text, String.toList_ofList] at h
  exact Terminal.isShown_of_mem_visible h

end Record

end SimplicialNash.Cli
