/-
  SimplicialNash.Game.Basic
  ─────────────────────────
  Finite games in strategic form.

  A game has a shape and, for every player, a payoff at every pure profile.
  How payoffs are stored or computed is up to whoever builds the game.  A game
  may be asked for a payoff that it does not have; the answer is then `none`,
  and `answered` promises that this happens to no player of the game at any of
  its own pure profiles.
-/
import SimplicialNash.Game.PureProfile

namespace SimplicialNash

open SimplicialNash.Number (numeral)

/-- A finite game in strategic form. -/
structure Game where
  title : String
  shape : Shape
  /-- The name of a player. -/
  playerName : Nat → String
  /-- The name of a player's strategy. -/
  strategyName : Nat → Nat → String
  /-- What a player gets when everyone plays as the pure profile says. -/
  payoff? : Nat → List Nat → Option Rat
  /-- Every player has a payoff at every pure profile. -/
  answered : ∀ player profile, player < shape.length → shape.Admits profile →
    (payoff? player profile).isSome

namespace Game

/-- The payoff of a player at a pure profile; zero where the game has none. -/
def payoff (g : Game) (player : Nat) (profile : List Nat) : Rat :=
  (g.payoff? player profile).getD 0

/-- The name of a player who has none: a number, counted from one. -/
def defaultPlayerName (player : Nat) : String := "Player " ++ numeral (player + 1)

/-- The name of a strategy that has none: a number, counted from one. -/
def defaultStrategyName (strategy : Nat) : String := numeral (strategy + 1)

/-- The untitled game with default names whose payoffs are computed on demand. -/
def ofPayoff (shape : Shape) (payoff : Nat → List Nat → Option Rat)
    (answered : ∀ player profile, player < shape.length → shape.Admits profile →
      (payoff player profile).isSome) : Game where
  title := ""
  shape := shape
  playerName := defaultPlayerName
  strategyName := fun _ => defaultStrategyName
  payoff? := payoff
  answered := answered

end Game

end SimplicialNash
