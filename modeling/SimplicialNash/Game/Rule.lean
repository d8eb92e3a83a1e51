/-
  SimplicialNash.Game.Rule
  ────────────────────────
  Games given by a rule instead of a table.

  Each rule gives the payoffs of games of every shape, so large games cost no
  memory.  A payoff is computed when it is asked for.
-/
import SimplicialNash.Game.Basic

namespace SimplicialNash

/-- A rule for the payoffs of a game of any shape. -/
inductive PayoffRule where
  /-- One for everyone if all play strategies of one number. -/
  | coordination
  /-- A loss of one for everyone who plays a strategy of the player's number. -/
  | congestion
  /-- Each player wants to be one strategy ahead of the next player. -/
  | cycle
  /-- The sum of all strategy numbers, weighed by the player's own number. -/
  | sum
deriving DecidableEq, Repr

namespace PayoffRule

/-- The strategy of a player and that of the next player, as the distance by
which the first is ahead, out of `n` strategies. -/
def lead (n own other : Nat) : Nat := (own + n - other % n) % n

/-- The payoff of a player at a pure profile of a game of the given shape. -/
def payoff? (rule : PayoffRule) (shape : Shape) (player : Nat) (profile : List Nat) :
    Option Rat :=
  match rule with
  | .coordination =>
    some (if profile.all fun s => some s == profile.head? then 1 else 0)
  | .congestion => profile[player]?.map fun own => -(profile.count own : Rat)
  | .cycle => do
    let n ← shape[player]?
    let own ← profile[player]?
    let other ← profile[(player + 1) % shape.length]?
    let d := lead n own other
    some (if d = 1 then 2 else if d = 0 then -1 else 0)
  | .sum => some ((player + 1) * profile.foldr (· + ·) 0 : Nat)

/-- A rule answers for every player at every profile of the shape. -/
theorem isSome_payoff? (rule : PayoffRule) (shape : Shape) (player : Nat) (profile : List Nat)
    (hp : player < shape.length) (h : shape.Admits profile) :
    (rule.payoff? shape player profile).isSome := by
  have hl := PureProfile.length_of_admits h
  have hp' : player < profile.length := by omega
  have hn : (player + 1) % shape.length < profile.length := by
    rw [hl]
    exact Nat.mod_lt _ (by omega)
  cases rule <;> simp [payoff?, hp, hp', hn]

/-- The game of a rule and a shape. -/
def game (rule : PayoffRule) (shape : Shape) : Game :=
  Game.ofPayoff shape (rule.payoff? shape) (rule.isSome_payoff? shape)

end PayoffRule

end SimplicialNash
