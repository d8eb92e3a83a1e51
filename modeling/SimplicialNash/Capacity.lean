/-
  SimplicialNash.Capacity
  ───────────────────────
  Calls that ask for too much.

  A count is kept in a word of 64 bits, a table has room for fewer than `2 ^ 57`
  weights, and a number is written with at most 65535 decimals.  A call that
  goes beyond this is a fault, `Fault.tooLarge`; any other call is answered as
  if there were no such limits.  So every function here has the name and the
  answers of the one that it guards.

  Data that are refused before anything is counted are refused here too: an
  invalid shape is named whatever its size.

  A field of a line whose exponent has no size is a fault of the same kind.  It
  comes up while the line is read, and a file is read up to the line with it.
-/
import SimplicialNash.Circle
import SimplicialNash.Game.Table
import SimplicialNash.Profile.Text
import SimplicialNash.Start

namespace SimplicialNash.Capacity

/-! ## §1. The limits -/

/-- An answer for a call that is not too large.  The answer is not computed
for any other. -/
@[macro_inline] def ifAtMost {α : Type} (limit size : Nat) (answer : α) : Except Fault α :=
  if size ≤ limit then .ok answer else .error .tooLarge

/-- The largest count. -/
def maxCount : Nat := UInt64.size - 1

/-- The largest number of weights in a table. -/
def maxWeights : Nat := 0x1ffffffffffffff

/-- The largest number of decimals. -/
def maxDecimals : Nat := 65535

theorem ifAtMost_eq_ok {α : Type} {limit size : Nat} (answer : α) (h : size ≤ limit) :
    ifAtMost limit size answer = .ok answer := if_pos h

theorem ifAtMost_eq_error {α : Type} {limit size : Nat} (answer : α) (h : ¬ size ≤ limit) :
    ifAtMost limit size answer = .error .tooLarge := if_neg h

/-- What is answered is what the guarded function answers. -/
theorem eq_of_ifAtMost_eq_ok {α : Type} {limit size : Nat} {answer given : α}
    (h : ifAtMost limit size answer = .ok given) : given = answer ∧ size ≤ limit := by
  unfold ifAtMost at h
  split at h
  · next hs =>
    cases h
    exact ⟨rfl, hs⟩
  · cases h

/-! ## §2. Tables and profile numbers -/

/-- The table with the same value everywhere. -/
def filled {α : Type} (shape : Shape) (value : α) : Except Fault (StrategyTable shape α) :=
  ifAtMost maxWeights shape.size (.filled shape value)

/-- The table with the given entries, if there are as many as it needs. -/
def ofList? {α : Type} (shape : Shape) (data : List α) :
    Except Fault (Option (StrategyTable shape α)) :=
  ifAtMost maxCount shape.size (StrategyTable.ofList? shape data)

/-- The number of pure profiles. -/
def profileCount (shape : Shape) : Except Fault Nat :=
  match shape.countProfiles? with
  | some count => .ok count
  | none => .error .tooLarge

/-- The number of a pure profile in a table. -/
def profileIndex (g : TableGame) (profile : List Nat) : Except Fault Nat :=
  ifAtMost maxCount (g.profileIndex profile) (g.profileIndex profile)

/-- The nearest free place before a place and the place after that. -/
def neighbours (closed : List Bool) (place : Nat) : Except Fault (Nat × Nat) :=
  if closed ≠ [] ∧ maxCount < place + closed.length then .error .tooLarge
  else Circle.neighbours closed place

/-! ## §3. Profiles -/

/-- The profile in which every player plays the first strategy. -/
def firstStrategies (shape : Shape) : Except Fault Profile :=
  if 0 ∈ shape ∨ shape.size ≤ maxWeights then Profile.firstStrategies shape
  else .error .tooLarge

/-- The profile with the given weights, player by player, if they are one. -/
def ofValues (shape : Shape) (values : List Rat) : Except Fault (Except ProfileError Profile) :=
  if shape = [] ∨ 0 ∈ shape then .ok (.error (.invalidShape shape))
  else ifAtMost maxCount shape.size (Profile.ofValues shape values)

/-- An answer whose error is a fault is this fault. -/
def raise {α : Type} : Except ProfileError α → Except Fault (Except ProfileError α)
  | .error (.fault f) => .error f
  | answer => .ok answer

/-- What is read from a line.  A line may have one field more than the shape has
entries, and the fields are counted too. -/
def lineAnswer (shape : Shape) (read : Except ProfileError Profile) :
    Except Fault (Except ProfileError Profile) := do
  raise (← ifAtMost maxCount (shape.size + 1) read)

/-- The profile on a line. -/
def readLine (shape : Shape) (text : String) : Except Fault (Except ProfileError Profile) :=
  lineAnswer shape (Profile.readLine shape text)

/-- What is read from a line, with the line's number. -/
def entryAnswer (shape : Shape) :
    Nat × Except ProfileError Profile → Except Fault (Nat × Except ProfileError Profile)
  | (line, read) => (lineAnswer shape read).map (line, ·)

/-- The answers up to the first fault, and this fault if there is one. -/
def upToFault {α β : Type} (call : α → Except Fault β) : List α → List β × Option Fault
  | [] => ([], none)
  | x :: rest =>
    match call x with
    | .error f => ([], some f)
    | .ok answer =>
      let (answers, fault?) := upToFault call rest
      (answer :: answers, fault?)

/-- The profile on each line that is not blank, with the line's number, up to
the first line that is a fault. -/
def readLines (shape : Shape) (text : String) :
    List (Nat × Except ProfileError Profile) × Option Fault :=
  upToFault (entryAnswer shape) (Profile.readLines shape text)

/-- A number of random profiles, one after another from one source. -/
def randomStarts {σ : Type} (g : Game) (denominator : Nat) (draw : DrawSource σ)
    (count : Nat) (state : σ) : Except Fault (List Profile × σ) :=
  if count = 0 ∨ g.shape.size ≤ maxWeights then
    SimplicialNash.randomStarts g denominator draw count state
  else .error .tooLarge

/-! ## §4. Writing -/

/-- The decimals that a weight is written with. -/
def decimalsOf : WeightFormat → Nat
  | .exact => 0
  | .decimal digits => digits

/-- A rational with a fixed count of decimals. -/
def fixedText (decimals : Nat) (q : Rat) : Except Fault (List Char) :=
  ifAtMost maxDecimals decimals (Number.fixedText decimals q)

/-- The profile as a line with a label. -/
def line (p : Profile) (label : String) (format : WeightFormat) : Except Fault String :=
  if p.values.isEmpty then .ok (p.line label format)
  else ifAtMost maxDecimals (decimalsOf format) (p.line label format)

end SimplicialNash.Capacity
