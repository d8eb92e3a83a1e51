/-
  SimplicialNash.Walk.Simplex
  ───────────────────────────
  The simplex at which a walk stands.

  A walk moves through simplices of a grid that subdivides the product of the
  players' strategy simplices.  A simplex is given by a base vertex and a
  path: a list of distinct labels.  One grid step per path entry leads from
  the base through all vertices, so a path of `t` entries has `t + 1` vertices
  (`Simplex.vertex`).  A grid step onto a label moves one mesh of weight onto
  its strategy from the nearest strategy before it, in circular order, that is
  not saturated.

  The base itself is not stored.  It is the reference vertex displaced by a
  ledger of whole grid steps (`Simplex.base`): a count of `k` at a fixed
  strategy stands for `k` meshes taken from the strategy directly before it.

  A strategy is triangulated while its label is on the path, and saturated
  while it is pinned to the boundary; strategies that are either are fixed.
-/
import SimplicialNash.Circle
import SimplicialNash.Fault
import SimplicialNash.StrategyTable

namespace SimplicialNash

/-! ## §1. Labels in circular order -/

namespace Label

variable {shape : Shape}

/-- The place of a label's strategy among those of its player. -/
def place (l : Label shape) : Fin (shape.count l.player) := ⟨l.strategy, l.inRange⟩

/-- The label of the same player at another place. -/
def moveTo (l : Label shape) (s : Fin (shape.count l.player)) : Label shape :=
  ⟨l.player, s.val, s.isLt⟩

/-- The label of the strategy that follows in circular order. -/
def next (l : Label shape) : Label shape := l.moveTo (Circle.ahead l.place 1)

/-- The labels from `l` up to the place `s`, in circular order. -/
def arcTo (l : Label shape) (s : Fin (shape.count l.player)) : List (Label shape) :=
  (Circle.arc l.place s).map l.moveTo

end Label

/-! ## §2. Points -/

/-- A weight for every label: a point of the space that the grid lies in. -/
abbrev Point (shape : Shape) := StrategyTable shape Rat

/-- The point after an amount of weight has been moved between two strategies. -/
def Point.transfer {shape : Shape} (y : Point shape) (source target : Label shape)
    (amount : Rat) : Point shape :=
  StrategyTable.modify (StrategyTable.modify y target (· + amount)) source (· - amount)

/-! ## §3. The simplex -/

/-- A simplex on the grid, and the vertex of it that is looked at. -/
structure Simplex (shape : Shape) where
  /-- The length of a grid step. -/
  mesh : Rat
  /-- How far a weight may fall below that of the reference vertex. -/
  leash : Rat
  /-- The vertex that the walk began at. -/
  reference : Point shape
  /-- The vertex that is looked at. -/
  current : Point shape
  /-- The labels along which grid steps lead from the base through all vertices. -/
  path : List (Label shape)
  /-- The label of each vertex, from the base on; none at the vertex that is to
  be labelled next. -/
  labels : List (Option (Label shape))
  /-- The number of the vertex that is to be labelled next. -/
  slot : Nat
  triangulated : StrategyTable shape Bool
  saturated : StrategyTable shape Bool
  /-- The ledger of whole grid steps. -/
  steps : StrategyTable shape Int
deriving DecidableEq

namespace Simplex

variable {shape : Shape}

/-- The simplex that consists of the reference vertex alone.  Strategies of
weight zero are saturated. -/
def start (reference : Point shape) (mesh : Rat) (leashLength : Nat) : Simplex shape where
  mesh := mesh
  leash := mesh * leashLength
  reference := reference
  current := reference
  path := []
  labels := [none]
  slot := 0
  triangulated := .filled shape false
  saturated := reference.map (· == 0)
  steps := .filled shape 0

/-- The saturated places among the strategies of a label's player. -/
def closed (x : Simplex shape) (l : Label shape) (s : Fin (shape.count l.player)) : Bool :=
  x.saturated.get (l.moveTo s)

/-- The nearest strategy before a label's that is not saturated. -/
def predecessor (x : Simplex shape) (l : Label shape) : Except Fault (Label shape) :=
  match Circle.freeBefore? (x.closed l) l.place with
  | some s => .ok (l.moveTo s)
  | none => .error .allSaturated

/-- The strategy after the predecessor. -/
def successor (x : Simplex shape) (l : Label shape) : Except Fault (Label shape) :=
  match Circle.afterFreeBefore? (x.closed l) l.place with
  | some s => .ok (l.moveTo s)
  | none => .error .allSaturated

/-- Whether a strategy is triangulated or saturated. -/
def isFixed (x : Simplex shape) (l : Label shape) : Bool :=
  x.triangulated.get l || x.saturated.get l

/-- Whether all strategies of a player but one are fixed. -/
def hasOneFree (x : Simplex shape) (player : Nat) : Bool :=
  (Label.ofPlayer shape player).countP x.isFixed + 1 == shape.count player

/-- Whether the weight of a strategy is used up: it is at zero, or a full leash
below that of the reference vertex. -/
def isExhausted (x : Simplex shape) (l : Label shape) : Bool :=
  x.current.get l ≤ 0 || x.leash ≤ x.reference.get l - x.current.get l

/-! ## §4. Vertices -/

/-- The ledger's count at a fixed strategy, and zero at any other. -/
def ledger (x : Simplex shape) (l : Label shape) : Int :=
  if x.isFixed l then x.steps.get l else 0

/-- The base vertex.  Each strategy has gained what the ledger has counted for
it, and lost what it has counted for the strategy that follows. -/
def base (x : Simplex shape) : Point shape :=
  .tabulate fun l => x.reference.get l + x.mesh * ((x.ledger l - x.ledger l.next : Int) : Rat)

/-- One grid step onto a label. -/
def stepOnto (x : Simplex shape) (y : Point shape) (l : Label shape) :
    Except Fault (Point shape) := do
  return y.transfer (← x.predecessor l) l x.mesh

/-- Grid steps onto one label after another. -/
def stepsOnto (x : Simplex shape) (y : Point shape) (ls : List (Label shape)) :
    Except Fault (Point shape) := ls.foldlM x.stepOnto y

/-- The vertex with a given number, counted from the base. -/
def vertex (x : Simplex shape) (number : Nat) : Except Fault (Point shape) :=
  x.stepsOnto x.base (x.path.take number)

end Simplex

end SimplicialNash
