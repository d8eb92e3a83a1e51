/-
  SimplicialNash.Fault
  ────────────────────
  Calls that cannot be answered.

  An error is a verdict on the data that a caller supplied, and has a type of
  its own beside the reader that gives it.  A fault is something else: the
  call asks for what does not exist, such as an entry beyond a table, or the
  best deviation among no players.
-/
import SimplicialNash.Number.Digits

namespace SimplicialNash

open SimplicialNash.Number (numeral)

/-- Why a call cannot be answered. -/
inductive Fault where
  /-- A position beyond the end of a table. -/
  | outOfRange
  /-- A deviation was asked for where nobody plays. -/
  | noPlayers
  /-- A player, counted from zero, has no strategy to reply with. -/
  | noReply (player : Nat)
  /-- A pure profile was asked for where a player has no strategy. -/
  | noStrategies
  /-- A random profile was asked for where there is no profile. -/
  | noProfile
  /-- No strategy of a player is free. -/
  | allSaturated
  /-- The path of the walk has no entry at a position, counted from one. -/
  | emptyPosition (position : Nat)
  /-- No vertex of the simplex has the label, whose player and strategy are
  counted from zero. -/
  | unknownLabel (player strategy : Nat)
  /-- A matrix game was asked for without a cell. -/
  | emptyMatrix
  /-- The matrices of a matrix game are not both of the given size. -/
  | raggedMatrix (rows columns : Nat)
  /-- More steps were taken than there are configurations to pass through. -/
  | endless
  /-- More was asked for than can be counted or written. -/
  | tooLarge
deriving DecidableEq, Repr

/-- What is said of a fault, if it has a text. -/
def Fault.message? : Fault → Option String
  | .outOfRange => none
  | .noPlayers => some "cannot label a profile without players"
  | .noReply player => some ("player " ++ numeral (player + 1) ++ " has no best response")
  | .noStrategies => some "every player needs at least one strategy"
  | .noProfile => none
  | .allSaturated => some "every strategy is saturated"
  | .emptyPosition position =>
    some ("pivot path position " ++ numeral position ++ " is empty")
  | .unknownLabel player strategy =>
    some ("label (" ++ numeral (player + 1) ++ "," ++ numeral (strategy + 1)
      ++ ") is not on the pivot path")
  | .emptyMatrix => some "bimatrix needs at least one cell"
  | .raggedMatrix rows columns =>
    some ("bimatrix payoff matrices must be " ++ numeral rows ++ "x" ++ numeral columns)
  | .endless => none
  | .tooLarge => none

/-! ## Calls one after another -/

section

variable {ε α β : Type}

theorem ok_bind (x : α) (f : α → Except ε β) : (Except.ok x >>= f) = f x := rfl

/-- What is answered in the end was answered on the way. -/
theorem exists_of_bind_eq_ok {call : Except ε α} {f : α → Except ε β} {answer : β}
    (h : (call >>= f) = .ok answer) : ∃ x, call = .ok x ∧ f x = .ok answer := by
  cases call with
  | error fault => cases h
  | ok x => exact ⟨x, rfl, h⟩

/-- A changed answer was an answer before. -/
theorem exists_of_map_eq_ok {call : Except ε α} {f : α → β} {answer : β}
    (h : call.map f = .ok answer) : ∃ x, call = .ok x ∧ f x = answer := by
  cases call with
  | error fault => cases h
  | ok x => exact ⟨x, rfl, Except.ok.inj h⟩

end

end SimplicialNash
