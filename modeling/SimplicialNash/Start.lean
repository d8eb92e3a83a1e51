/-
  SimplicialNash.Start
  ────────────────────
  Starting points.

  A pure start puts all weight on first strategies.  A random start lies on
  the grid of a denominator: of each player's weight, every strategy but the
  last draws its share from what is left, and the last one takes the rest.
  The draws come from any source; a source is a function from its state and a
  greatest number to a number and its next state.
-/
import SimplicialNash.Game.Basic
import SimplicialNash.Profile.Basic
import SimplicialNash.Random.Draw

namespace SimplicialNash

/-- The profile in which every player plays the first strategy. -/
def pureStart (g : Game) : Except Fault Profile := Profile.firstStrategies g.shape

section Draws

variable {σ : Type}

/-- A source of draws: from a state and a greatest number, a number and the
next state. -/
abbrev DrawSource (σ : Type) := σ → Nat → Option (Nat × σ)

/-- The shares of a player's strategies in what is left of the player's weight.
When nothing is left nothing is drawn. -/
def drawShares (draw : DrawSource σ) : (strategies left : Nat) → σ → Option (List Nat × σ)
  | 0, _, state => some ([], state)
  | 1, left, state => some ([left], state)
  | n + 2, 0, state => some (List.replicate (n + 2) 0, state)
  | n + 2, left + 1, state => do
    let (share, state) ← draw state (left + 1)
    let (others, state) ← drawShares draw (n + 1) (left + 1 - share) state
    return (share :: others, state)

/-- The shares of all players' strategies, player by player. -/
def drawAllShares (draw : DrawSource σ) (denominator : Nat) :
    Shape → σ → Option (List Nat × σ)
  | [], state => some ([], state)
  | n :: rest, state => do
    let (shares, state) ← drawShares draw n denominator state
    let (others, state) ← drawAllShares draw denominator rest state
    return (shares ++ others, state)

/-- A random profile whose weights are multiples of one over the denominator. -/
def randomStart (g : Game) (denominator : Nat) (draw : DrawSource σ) (state : σ) :
    Except Fault (Profile × σ) :=
  match drawAllShares draw denominator g.shape state with
  | none => .error .endless
  | some (shares, state) =>
    match Profile.ofValues g.shape (shares.map fun (k : Nat) => mkRat k denominator) with
    | .ok p => .ok (p, state)
    | .error _ => .error .noProfile

/-- A number of random profiles, one after another from one source. -/
def randomStarts (g : Game) (denominator : Nat) (draw : DrawSource σ) :
    (count : Nat) → σ → Except Fault (List Profile × σ)
  | 0, state => .ok ([], state)
  | count + 1, state => do
    let (p, state) ← randomStart g denominator draw state
    let (others, state) ← randomStarts g denominator draw count state
    return (p :: others, state)

end Draws

end SimplicialNash
