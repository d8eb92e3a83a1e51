/-
  SimplicialNash.Profile.Basic
  ────────────────────────────
  Mixed profiles: a weight for every player and strategy.

  A profile is the object that the solver improves.  `Profile.IsNormalized`
  says that every player's weights are a probability distribution;
  `Profile.ofValues` builds only such profiles and names the first defect of
  any other data.  The type itself admits any weights, because a walk on a
  grid that its start is not part of may leave the simplex.
-/
import SimplicialNash.Fault
import SimplicialNash.Number.Total
import SimplicialNash.StrategyTable
import SimplicialNash.Profile.Error

namespace SimplicialNash

open SimplicialNash.Number (total)

/-! ## §1. The type -/

/-- A weight for every player and strategy. -/
structure Profile where
  shape : Shape
  weights : StrategyTable shape Rat
deriving DecidableEq

namespace Profile

/-- The weights, player by player. -/
def values (p : Profile) : List Rat := p.weights.toList

/-- The weights of each player. -/
def rows (p : Profile) : List (List Rat) := p.weights.rows

/-- A player's weights are a probability distribution. -/
def IsDistribution (row : List Rat) : Prop := (∀ w ∈ row, 0 ≤ w) ∧ total row = 1

instance (row : List Rat) : Decidable (IsDistribution row) :=
  inferInstanceAs (Decidable (_ ∧ _))

/-- Every player's weights are a probability distribution. -/
def IsNormalized (p : Profile) : Prop := ∀ row ∈ p.rows, IsDistribution row

instance (p : Profile) : Decidable p.IsNormalized :=
  inferInstanceAs (Decidable (∀ row ∈ p.rows, IsDistribution row))

/-! ## §2. Construction -/

/-- The profile in which every player plays the first strategy. -/
def firstStrategies (shape : Shape) : Except Fault Profile :=
  if 0 ∈ shape then .error .noStrategies
  else .ok ⟨shape, .tabulate fun l => if l.strategy = 0 then 1 else 0⟩

/-- What is wrong with a player's weights, if anything: a negative weight is
named before a wrong total. -/
def rowError? (player : Nat) (row : List Rat) : Option ProfileError :=
  match row.findIdx? (· < 0) with
  | some strategy => some (.negativeWeight player strategy)
  | none => if total row = 1 then none else some (.notNormalized player (total row))

/-- What is wrong with the weights of the first player for whom anything is;
the players are numbered from `player` on. -/
def rowsError? : Nat → List (List Rat) → Option ProfileError
  | _, [] => none
  | player, row :: rest =>
    match rowError? player row with
    | some e => some e
    | none => rowsError? (player + 1) rest

/-- The profile with the given weights, player by player, if they are one. -/
def ofValues (shape : Shape) (values : List Rat) : Except ProfileError Profile :=
  if shape = [] ∨ 0 ∈ shape then .error (.invalidShape shape)
  else
    match StrategyTable.ofList? shape values with
    | none => .error (.wrongLength shape.size values.length)
    | some weights =>
      match rowsError? 0 weights.rows with
      | some e => .error e
      | none => .ok ⟨shape, weights⟩

/-! ## §3. Description -/

/-- For each player, the number of strategies played with positive weight. -/
def supportSizes (p : Profile) : List Nat :=
  p.rows.map fun row => row.countP (0 < ·)

/-- The least positive number that makes every weight an integer. -/
def denominatorLcm (p : Profile) : Nat :=
  p.values.foldl (fun lcm w => lcm.lcm w.den) 1

/-- For each player who has a strategy, the weight of the last one. -/
def lastWeights (p : Profile) : List Rat := p.rows.filterMap List.getLast?

/-! ## §4. Laws -/

theorem rowError?_eq_none_iff (player : Nat) (row : List Rat) :
    rowError? player row = none ↔ IsDistribution row := by
  unfold rowError? IsDistribution
  cases h : row.findIdx? (· < 0) with
  | some i =>
    obtain ⟨hi, hlt, -⟩ := List.findIdx?_eq_some_iff_getElem.mp h
    simp only [reduceCtorEq, false_iff, not_and]
    intro hall
    have h0 := hall _ (List.getElem_mem hi)
    simp only [decide_eq_true_eq] at hlt
    exact absurd hlt (Rat.not_lt.mpr h0)
  | none =>
    have hall : ∀ w ∈ row, 0 ≤ w := by
      intro w hw
      have := List.findIdx?_eq_none_iff.mp h w hw
      simp only [decide_eq_false_iff_not] at this
      exact Rat.not_lt.mp this
    constructor
    · intro he
      refine ⟨hall, ?_⟩
      by_cases hs : total row = 1
      · exact hs
      · simp [hs] at he
    · intro ⟨_, hs⟩
      simp [hs]

theorem rowsError?_eq_none_iff (player : Nat) (rows : List (List Rat)) :
    rowsError? player rows = none ↔ ∀ row ∈ rows, IsDistribution row := by
  induction rows generalizing player with
  | nil => simp [rowsError?]
  | cons row rest ih =>
    unfold rowsError?
    cases h : rowError? player row with
    | some e =>
      have : ¬ IsDistribution row := fun hd => by
        rw [(rowError?_eq_none_iff player row).mpr hd] at h
        cases h
      simp [this]
    | none =>
      have hd := (rowError?_eq_none_iff player row).mp h
      simp [ih, hd]

/-- Only normalized profiles are built from values, and they have these values. -/
theorem isNormalized_of_ofValues {shape : Shape} {values : List Rat} {p : Profile}
    (h : ofValues shape values = .ok p) :
    p.IsNormalized ∧ p.shape = shape ∧ p.values = values := by
  unfold ofValues at h
  split at h
  · cases h
  · split at h
    · cases h
    · next weights hw =>
      split at h
      · cases h
      · next hr =>
        cases h
        exact ⟨(rowsError?_eq_none_iff 0 _).mp hr, rfl, StrategyTable.toList_of_ofList? hw⟩

end Profile

end SimplicialNash
