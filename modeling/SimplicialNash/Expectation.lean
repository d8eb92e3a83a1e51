/-
  SimplicialNash.Expectation
  ──────────────────────────
  Expected payoffs under mixed profiles.

  When every player draws a strategy independently, the expectation of a
  quantity is computed player by player; strategies of weight zero are passed
  over.  A player's payoff from a pure strategy is the expectation when that
  player draws it for certain and the others play as in the profile.

  A profile of another shape than the game's may ask for payoffs that the game
  does not have.  `Game.covers` says whether all payoffs that the profile asks
  for are there.
-/
import SimplicialNash.Game.Basic
import SimplicialNash.Profile.Basic

namespace SimplicialNash

open SimplicialNash.Number (total)

/-! ## §1. Independent draws -/

/-- A player's draw: strategies with their weights. -/
abbrev Lottery := List (Nat × Rat)

namespace Lottery

/-- The strategies that a row gives a weight other than zero. -/
def ofRow (row : List Rat) : Lottery :=
  (row.zipIdx.filter fun (w, _) => w != 0).map fun (w, s) => (s, w)

/-- One strategy for certain. -/
def certain (strategy : Nat) : Lottery := [(strategy, 1)]

end Lottery

/-- The expectation of a quantity when each player draws independently. -/
def expectation : List Lottery → (List Nat → Rat) → Rat
  | [], f => f []
  | lottery :: rest, f =>
    total (lottery.map fun (s, w) => w * expectation rest fun profile => f (s :: profile))

/-- Whether a condition holds at every pure profile that can be drawn. -/
def forallDrawn : List Lottery → (List Nat → Bool) → Bool
  | [], f => f []
  | lottery :: rest, f =>
    lottery.all fun (s, _) => forallDrawn rest fun profile => f (s :: profile)

/-! ## §2. Payoffs -/

namespace Profile

/-- What each player draws from. -/
def lotteries (p : Profile) : List Lottery := p.rows.map Lottery.ofRow

/-- The players' draws when one of them plays a strategy for certain. -/
def draws (lotteries : List Lottery) (player strategy : Nat) : List Lottery :=
  lotteries.set player (.certain strategy)

end Profile

namespace Game

/-- A player's payoff from a strategy when the others draw from lotteries. -/
def payoffAgainst (g : Game) (lotteries : List Lottery) (player strategy : Nat) : Rat :=
  expectation (Profile.draws lotteries player strategy) (g.payoff player)

/-- A player's payoff from a strategy when the others play as in a profile. -/
def strategyPayoff (g : Game) (p : Profile) (player strategy : Nat) : Rat :=
  g.payoffAgainst p.lotteries player strategy

/-- A player's expected payoff under a profile. -/
def expectedPayoff (g : Game) (p : Profile) (player : Nat) : Rat :=
  total ((p.lotteries.getD player []).map fun (s, w) => w * g.strategyPayoff p player s)

/-- Whether the game has all payoffs that the evaluation of a profile asks for.
A profile of the game's own shape asks for no others. -/
def covers (g : Game) (p : Profile) : Bool :=
  p.shape == g.shape ||
    (Label.all p.shape).all fun l =>
      forallDrawn (Profile.draws p.lotteries l.player l.strategy) fun profile =>
        (g.payoff? l.player profile).isSome

/-- Every player's payoffs, from each strategy and expected, if the game has
all payoffs that are asked for. -/
def payoffsUnder (g : Game) (p : Profile) : Except Fault (List (List Rat × Rat)) :=
  if g.covers p then
    .ok ((List.range p.shape.length).map fun player =>
      ((List.range (p.shape.count player)).map (g.strategyPayoff p player),
        g.expectedPayoff p player))
  else .error .outOfRange

end Game

end SimplicialNash
