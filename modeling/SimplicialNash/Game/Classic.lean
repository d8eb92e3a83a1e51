/-
  SimplicialNash.Game.Classic
  ───────────────────────────
  Small textbook games with known equilibria.
-/
import SimplicialNash.Game.Table

namespace SimplicialNash

/-- The textbook games. -/
inductive ClassicGame where
  /-- Two players with one strategy each: every profile is an equilibrium. -/
  | trivial
  /-- Row wins a point when the coins match, Column when they differ.  The one
  equilibrium is uniform play. -/
  | matchingPennies
  /-- Mutual defection is the one equilibrium. -/
  | prisonersDilemma
  /-- A zero-sum game whose one equilibrium is uniform play. -/
  | rockPaperScissors
  /-- Two pure equilibria and one mixed, (2/3, 1/3) against (1/3, 2/3). -/
  | battleOfTheSexes
  /-- Row's third strategy dominates the others, so the one equilibrium is
  (Bottom, Right). -/
  | dominantRow
deriving DecidableEq, Repr

namespace ClassicGame

/-- The title of a game. -/
def title : ClassicGame → String
  | .trivial => "Trivial"
  | .matchingPennies => "Matching pennies"
  | .prisonersDilemma => "Prisoner's dilemma"
  | .rockPaperScissors => "Rock, paper, scissors"
  | .battleOfTheSexes => "Battle of the sexes"
  | .dominantRow => "Dominant row"

/-- The payoff matrix of the first player. -/
def rowMatrix : ClassicGame → List (List Int)
  | .trivial => [[3]]
  | .matchingPennies => [[1, -1], [-1, 1]]
  | .prisonersDilemma => [[3, 0], [5, 1]]
  | .rockPaperScissors => [[0, -1, 1], [1, 0, -1], [-1, 1, 0]]
  | .battleOfTheSexes => [[2, 0], [0, 1]]
  | .dominantRow => [[1, 0], [2, 1], [4, 3]]

/-- The payoff matrix of the second player. -/
def columnMatrix : ClassicGame → List (List Int)
  | .trivial => [[3]]
  | .matchingPennies => [[-1, 1], [1, -1]]
  | .prisonersDilemma => [[3, 5], [0, 1]]
  | .rockPaperScissors => [[0, 1, -1], [-1, 0, 1], [1, -1, 0]]
  | .battleOfTheSexes => [[1, 0], [0, 2]]
  | .dominantRow => [[0, 2], [3, 1], [1, 2]]

/-- The players of a game. -/
def players : ClassicGame → List PlayerInfo
  | .trivial => [.numbered "Player 1" 1, .numbered "Player 2" 1]
  | .matchingPennies => named ["Heads", "Tails"] ["Heads", "Tails"]
  | .prisonersDilemma => named ["Cooperate", "Defect"] ["Cooperate", "Defect"]
  | .rockPaperScissors => named ["Rock", "Paper", "Scissors"] ["Rock", "Paper", "Scissors"]
  | .battleOfTheSexes => named ["Opera", "Football"] ["Opera", "Football"]
  | .dominantRow => named ["Top", "Middle", "Bottom"] ["Left", "Right"]
where
  /-- Row and Column, with the names of their strategies. -/
  named (row column : List String) : List PlayerInfo := [⟨"Row", row⟩, ⟨"Column", column⟩]

/-- The answer of a call that has one. -/
def answerOf {ε α : Type} : (call : Except ε α) → call.isOk = true → α
  | .ok answer, _ => answer

theorem isOk_bimatrix (c : ClassicGame) :
    (TableGame.bimatrix c.title c.rowMatrix c.columnMatrix).isOk = true := by
  cases c <;> decide +kernel

/-- The game of the two matrices, before its players get their names. -/
def matrixGame (c : ClassicGame) : TableGame := answerOf _ c.isOk_bimatrix

theorem isOk_withPlayers (c : ClassicGame) : (c.matrixGame.withPlayers c.players).isOk = true := by
  cases c <;> decide +kernel

/-- The game as a table. -/
def game (c : ClassicGame) : TableGame := answerOf _ c.isOk_withPlayers

end ClassicGame

end SimplicialNash
