/-
  SimplicialNash.Walk.Move
  ────────────────────────
  The moves of a walk from simplex to simplex.

  Each label that is evaluated sends the walk on.  A label of a free strategy
  extends the path and with it the simplex.  A label that another vertex has
  already sends the walk through the face opposite to that vertex: the vertex
  is replaced by the one beyond the face.  At the boundary of the grid, or at
  the end of the leash, there is nothing beyond; the walk then goes on in the
  face, whose path is one entry shorter, or it releases or saturates a
  strategy and goes on along the boundary.  A walk is finished when one player
  has no free strategy left but the one that was labelled.

  Vertices are numbered from zero, so that vertex `v` lies between the path
  entries `v - 1` and `v`.
-/
import SimplicialNash.Walk.Simplex

namespace SimplicialNash

/-- What a walk does next. -/
inductive Move (shape : Shape) where
  /-- Find the label of the vertex that is looked at. -/
  | evaluate
  /-- Put a label on the path, before the entry with the given number, and look
  at the vertex beyond it. -/
  | extend (entry : Nat) (label : Label shape)
  /-- Replace the vertex with the given number. -/
  | replace (vertex : Nat)
  /-- Take the entry before the vertex with the given number off the path. -/
  | drop (vertex : Nat)
  /-- Free a saturated strategy, and let the path begin with its last entry. -/
  | release (label : Label shape)
  /-- The simplex is fully labelled. -/
  | finish
deriving DecidableEq

namespace Simplex

variable {shape : Shape}

/-! ## §1. Where a label leads -/

/-- The entry before which a saturated strategy's label goes: that of the next
strategy which is not saturated, or the end of the path. -/
def entryFor (x : Simplex shape) (l : Label shape) : Except Fault Nat :=
  match Circle.freeFrom? (x.closed l) l.place with
  | none => .error .allSaturated
  | some s =>
    let free := l.moveTo s
    .ok (if x.triangulated.get free then x.path.idxOf free else x.path.length)

/-- The vertex that is looked at has been labelled. -/
def receive (x : Simplex shape) (l : Label shape) : Except Fault (Simplex shape × Move shape) :=
  let labelled := { x with labels := x.labels.set x.slot (some l) }
  if x.isFixed l then
    if x.triangulated.get l then
      match x.labels.idxOf? (some l) with
      | some v => .ok (labelled, .replace v)
      | none => .error (.unknownLabel l.player l.strategy)
    else do return (labelled, .extend (← x.entryFor l) l)
  else if x.hasOneFree l.player then .ok (labelled, .finish)
  else .ok (labelled, .extend x.path.length l)

/-! ## §2. Longer paths -/

/-- A label goes onto the path before the entry with the given number; the
vertex beyond it is to be labelled. -/
def extend (x : Simplex shape) (entry : Nat) (l : Label shape) :
    Except Fault (Simplex shape × Move shape) := do
  let y ← x.vertex entry
  let y ← x.stepOnto y l
  return ({ x with
    current := y
    path := x.path.insertIdx entry l
    labels := x.labels.insertIdx (entry + 1) none
    slot := entry + 1
    triangulated := x.triangulated.set l true
    saturated := x.saturated.set l false }, .evaluate)

/-! ## §3. Vertices replaced -/

/-- The ledger with an amount added to every label from `first` to `last` in
circular order. -/
def shiftSteps (x : Simplex shape) (first last : Label shape) (amount : Int) :
    StrategyTable shape Int :=
  if h : last.player = first.player then
    (first.arcTo ⟨last.strategy, h ▸ last.inRange⟩).foldl
      (fun steps l => steps.modify l (· + amount)) x.steps
  else x.steps

/-- The base is replaced: the path begins with its second entry and ends with
its first. -/
def turnBase (x : Simplex shape) (first entry : Label shape) : Simplex shape :=
  { x with
    path := x.path.drop 1 ++ x.path.take 1
    labels := x.labels.drop 1 ++ [none]
    slot := x.path.length
    steps := x.shiftSteps first entry 1 }

/-- The last vertex is replaced: the path begins with its last entry. -/
def turnTip (x : Simplex shape) (first entry : Label shape) : Simplex shape :=
  { x with
    path := entry :: x.path.dropLast
    labels := none :: x.labels.dropLast
    slot := 0
    steps := x.shiftSteps first entry (-1) }

/-- The base is replaced.  Where it cannot be, its last step's source is
saturated, which ends the walk if no other strategy is free. -/
def replaceBase (x : Simplex shape) (entry : Label shape) :
    Except Fault (Simplex shape × Move shape) := do
  let source ← x.predecessor entry
  let first ← x.successor entry
  let x := { x with current := ← x.vertex x.path.length }
  if x.isExhausted source then
    if x.hasOneFree entry.player then
      return ({ x with saturated := x.saturated.set source true }, .finish)
    else
      let x := x.turnBase first entry
      let x := { x with saturated := x.saturated.set source true }
      let y ← x.stepsOnto x.current (x.path.drop (x.path.length - 1))
      return ({ x with current := y }, .evaluate)
  else
    let y ← x.stepOnto x.current entry
    return ({ x.turnBase first entry with current := y }, .evaluate)

/-- A vertex between base and tip is replaced: the entries before and after it
change places. -/
def replaceInner (x : Simplex shape) (vertex : Nat) (before entry : Label shape) :
    Except Fault (Simplex shape × Move shape) := do
  let source ← x.predecessor entry
  let x := { x with current := ← x.vertex (vertex - 1) }
  if x.isExhausted source then return (x, .drop vertex)
  else
    let y ← x.stepOnto x.current entry
    return ({ x with
      current := y
      path := (x.path.set (vertex - 1) entry).set vertex before
      labels := x.labels.set vertex none
      slot := vertex }, .evaluate)

/-- The strategy to release when the tip cannot be replaced: the one before the
first strategy, from the successor of the last entry on, whose ledger is not
empty. -/
def releasable? (x : Simplex shape) (first entry : Label shape) : Option (Label shape) :=
  if h : entry.player = first.player then
    let arc := first.arcTo ⟨entry.strategy, h ▸ entry.inRange⟩
    match arc.findIdx? fun l => x.steps.get l != 0 with
    | some (k + 1) => arc[k]?
    | _ => none
  else none

/-- The last vertex is replaced.  Where it cannot be, a strategy is released, or
the last entry is dropped. -/
def replaceTip (x : Simplex shape) (entry : Label shape) :
    Except Fault (Simplex shape × Move shape) := do
  let first ← x.successor entry
  let x := { x with current := ← x.vertex 0 }
  if x.steps.get first = 0 then
    if x.isExhausted entry then return (x, .drop x.path.length)
    else
      match x.releasable? first entry with
      | some l => return (x, .release l)
      | none => return (x, .drop x.path.length)
  else
    let y := x.current.transfer entry (← x.predecessor entry) x.mesh
    return ({ x.turnTip first entry with current := y }, .evaluate)

/-- A vertex is replaced by the one beyond the opposite face. -/
def replace (x : Simplex shape) (vertex : Nat) : Except Fault (Simplex shape × Move shape) :=
  match vertex, x.path with
  | _, [] => .error (.emptyPosition 0)
  | 0, entry :: _ => x.replaceBase entry
  | v + 1, first :: rest =>
    match x.path[v + 1]? with
    | some entry => x.replaceInner (v + 1) (x.path.getD v first) entry
    | none => x.replaceTip ((first :: rest).getLast (List.cons_ne_nil first rest))

/-! ## §4. Shorter paths, and strategies released -/

/-- The entry before a vertex goes off the path, and the vertex out of the
simplex.  The walk leaves the face through the vertex with that label. -/
def drop (x : Simplex shape) (vertex : Nat) : Except Fault (Simplex shape × Move shape) :=
  match vertex with
  | 0 => .error (.emptyPosition 0)
  | v + 1 =>
    match x.path[v]? with
    | none => .error (.emptyPosition (v + 1))
    | some l =>
      let x := { x with current := x.base }
      let labels := x.labels.eraseIdx (v + 1)
      match labels.idxOf? (some l) with
      | none => .error (.unknownLabel l.player l.strategy)
      | some next =>
        .ok ({ x with
          path := x.path.eraseIdx v
          labels := labels
          triangulated := x.triangulated.set l false
          saturated := if x.isExhausted l then x.saturated.set l true else x.saturated },
          .replace next)

/-- A saturated strategy is freed and the path begins with its last entry; the
vertex one step against that entry is to be labelled. -/
def release (x : Simplex shape) (l : Label shape) : Except Fault (Simplex shape × Move shape) :=
  match x.path.getLast? with
  | none => .error (.emptyPosition 0)
  | some entry => do
    let x := { x with saturated := x.saturated.set l false }
    let first ← x.successor entry
    let y := x.current.transfer entry (← x.predecessor entry) x.mesh
    return ({ x.turnTip first entry with current := y }, .evaluate)

/-- A move that evaluates no label. -/
def step (x : Simplex shape) : Move shape → Except Fault (Simplex shape × Move shape)
  | .evaluate => .ok (x, .evaluate)
  | .extend entry l => x.extend entry l
  | .replace vertex => x.replace vertex
  | .drop vertex => x.drop vertex
  | .release l => x.release l
  | .finish => .ok (x, .finish)

end Simplex

end SimplicialNash
