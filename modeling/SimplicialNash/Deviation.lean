/-
  SimplicialNash.Deviation
  ────────────────────────
  The most profitable deviation from a profile.

  The excess of a player is what the best pure reply pays beyond what the
  player gets.  The label of a profile is the player with the largest excess
  and that player's best reply; of equals the first counts, among players and
  among strategies.  A profile whose excess is zero is an equilibrium.

  An `Incumbent` is the profile with the smallest excess among those seen; the
  earliest of several stays.
-/
import SimplicialNash.Expectation

namespace SimplicialNash

open SimplicialNash.Number (total)

/-! ## §1. Labels of profiles -/

/-- A strategy to deviate to, and what the deviation gains. -/
structure Deviation (shape : Shape) where
  label : Label shape
  excess : Rat
deriving DecidableEq

/-- The first item with the largest value. -/
def firstMax {α : Type} : List (α × Rat) → Option (α × Rat)
  | [] => none
  | first :: rest =>
    some (rest.foldl (fun best item => if best.2 < item.2 then item else best) first)

namespace Game

/-- A player's best reply to a profile, with the player's excess; none if the
player has no strategies. -/
def bestReply? (g : Game) (p : Profile) (lotteries : List Lottery) (row : List Rat)
    (player : Nat) : Option (Label p.shape × Rat) :=
  let replies := (Label.ofPlayer p.shape player).map fun l =>
    (l, g.payoffAgainst lotteries player l.strategy)
  let realised := total (List.zipWith (fun w reply => w * reply.2) row replies)
  (firstMax replies).map fun (l, payoff) => (l, payoff - realised)

/-- The best replies of all players who have strategies. -/
def bestReplies (g : Game) (p : Profile) : List (Label p.shape × Rat) :=
  let lotteries := p.lotteries
  p.rows.zipIdx.filterMap fun (row, player) => g.bestReply? p lotteries row player

/-- The most profitable deviation from a profile. -/
def bestDeviation (g : Game) (p : Profile) : Except Fault (Deviation p.shape) :=
  if g.covers p then
    match p.shape.findIdx? (· == 0) with
    | some player => .error (.noReply player)
    | none =>
      match firstMax (g.bestReplies p) with
      | some (label, excess) => .ok ⟨label, excess⟩
      | none => .error .noPlayers
  else .error .outOfRange

end Game

/-! ## §2. The best profile seen -/

/-- The profile with the smallest excess seen so far, its excess, and how many
profiles have been labelled. -/
structure Incumbent where
  regret : Rat
  profile : Profile
  evaluations : Nat
deriving DecidableEq

namespace Incumbent

/-- The incumbent before any profile is labelled: the start, at its own excess. -/
def ofStart (g : Game) (start : Profile) : Except Fault Incumbent := do
  let d ← g.bestDeviation start
  return ⟨d.excess, start, 0⟩

/-- A profile with the given excess has been labelled.  It becomes the
incumbent if its excess is smaller. -/
def observe (inc : Incumbent) (p : Profile) (excess : Rat) : Incumbent :=
  if excess < inc.regret then ⟨excess, p, inc.evaluations + 1⟩
  else { inc with evaluations := inc.evaluations + 1 }

/-- A profile is labelled. -/
def label (inc : Incumbent) (g : Game) (p : Profile) :
    Except Fault (Deviation p.shape × Incumbent) := do
  let d ← g.bestDeviation p
  return (d, inc.observe p d.excess)

end Incumbent

end SimplicialNash
