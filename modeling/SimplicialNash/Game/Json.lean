/-
  SimplicialNash.Game.Json
  ────────────────────────
  Games as JSON.

      { "title": text, "players": [player, ...], "payoffs": [[payoff, ...], ...] }
      player  := { "name": text, "strategies": [text, ...] }
      payoff  := a number, taken digit for digit, or a string that holds one

  A number may also be given as an object that is marked as one
  (`Json.Value.numberKey`).  The payoffs are listed profile by profile, in the
  order of the profiles' numbers.  A missing title is empty; fields with other
  names are passed over.
  Games and players may also be arrays of all their fields in order.

  Reading has three stages: the layout, then the payoffs as numbers, then the
  table.  An error of an earlier stage comes first.  Texts are made values, and
  values texts, by a JSON package that is a parameter here.
-/
import SimplicialNash.Game.Table
import SimplicialNash.Json.Package

namespace SimplicialNash

open SimplicialNash.Json SimplicialNash.Number

/-! ## §1. Layout -/

/-- The content of a game file before its payoffs are read as numbers. -/
structure GameFile where
  title : String
  players : List PlayerInfo
  payoffs : List (List Value)

namespace GameFile

/-- The containers around a payoff: the game, its payoffs, a profile's payoffs. -/
def payoffNesting : Nat := 3

/-- A string's characters. -/
def string? (v : Value) : Option String := v.asText?.map String.ofList

/-- A player with the given name and strategies. -/
def player? (name strategies : Value) : Option PlayerInfo := do
  let items ← strategies.asArray?
  return ⟨← string? name, ← items.mapM string?⟩

/-- A player, in either form. -/
def readPlayer? (v : Value) : Option PlayerInfo :=
  match v with
  | .array [name, strategies] => player? name strategies
  | .object .. => do
    let fields ← v.asRecord?
    player? (← fields.required? "name") (← fields.required? "strategies")
  | _ => none

/-- A payoff that is not nested too deeply and whose strings denote characters.
A number may be given as an object that is marked as one. -/
def payoff? (v : Value) : Option Value :=
  if v.isDecodable && v.depth + payoffNesting ≤ Value.maxNesting then v.unmarked? else none

/-- A game file with the given content. -/
def file? (title : String) (players payoffs : Value) : Option GameFile := do
  let players ← players.asArray?
  let rows ← payoffs.asArray?
  return {
    title := title
    players := ← players.mapM readPlayer?
    payoffs := ← rows.mapM fun row => do (← row.asArray?).mapM payoff? }

/-- A game file, in either form. -/
def read? (v : Value) : Option GameFile :=
  match v with
  | .array [title, players, payoffs] => do file? (← string? title) players payoffs
  | .object .. => do
    let fields ← v.asRecord?
    let title ← match ← fields.field? "title" with
      | none => some ""
      | some title => string? title
    file? title (← fields.required? "players") (← fields.required? "payoffs")
  | _ => none

end GameFile

/-! ## §2. Reading -/

section

variable (P : Package)

/-- The number that a payoff denotes. -/
def readPayoff (v : Value) : Except GameError Rat :=
  match v with
  | .number _ => readGameNumber (P.compact v)
  | .string text? => readGameNumber (text?.getD [])
  | _ => .error (.invalidNumber (String.ofList (P.compact v)))

/-- The game that a JSON text describes. -/
def readJsonGame (cs : List Char) : Except GameError TableGame :=
  match (P.read? cs).bind GameFile.read? with
  | none => .error .malformed
  | some file => do
    let payoffs ← file.payoffs.mapM fun row => row.mapM (readPayoff P)
    TableGame.ofPayoffs file.title file.players payoffs

end

/-! ## §3. Writing -/

/-- A text as a value. -/
def textValue (cs : List Char) : Value := .string (some cs)

/-- The names of fields as keys. -/
def fieldNames (names : List String) : List (Option (List Char)) :=
  names.map fun name => some name.toList

/-- A player as a value. -/
def PlayerInfo.jsonValue (p : PlayerInfo) : Value :=
  .object (fieldNames ["name", "strategies"])
    [textValue p.name.toList, .array (p.strategies.map fun s => textValue s.toList)]

/-- A profile's payoffs as a value, each of them as a string. -/
def payoffsValue (row : List Rat) : Value :=
  .array (row.map fun q => textValue (rationalText q))

/-- A game as a value. -/
def TableGame.jsonValue (g : TableGame) : Value :=
  .object (fieldNames ["title", "players", "payoffs"])
    [textValue g.title.toList, .array (g.players.map PlayerInfo.jsonValue),
      .array (g.payoffs.toList.map payoffsValue)]

/-- The game as JSON, unless it cannot be written. -/
def TableGame.json (P : Package) (g : TableGame) : Except GameError String :=
  match P.write? g.jsonValue with
  | some cs => .ok (String.ofList cs)
  | none => .error .malformed

end SimplicialNash
