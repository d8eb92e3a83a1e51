/-
  SimplicialNash.Game.Error
  ─────────────────────────
  What can be wrong with the data of a game, and its wording.
-/
import SimplicialNash.Fault
import SimplicialNash.Nfg.Token
import SimplicialNash.Number.Literal

namespace SimplicialNash

open SimplicialNash.Number (numeral)

/-- What a reader of strategic-form game files looks for. -/
inductive Nfg.Expected where
  | opening
  | closing
  | quoted
  | word
  | endOfFile
deriving DecidableEq, Repr

/-- What is looked for, in words. -/
def Nfg.Expected.text : Nfg.Expected → String
  | .opening => "'\x7b'"
  | .closing => "'\x7d'"
  | .quoted => "a quoted string"
  | .word => "a number or keyword"
  | .endOfFile => "end of file"

/-- How a strategic-form game file departs from its format. -/
inductive Nfg.Departure where
  /-- The file does not begin with the name of the format. -/
  | missingHeader
  | unsupportedVersion (version : String)
  | unknownNumberKind (kind : String)
  /-- There are not as many strategy lists as players. -/
  | strategyLists (players lists : Nat)
  /-- There are not as many strategy counts as players. -/
  | strategyCounts (players counts : Nat)
  /-- A token stands where another was looked for. -/
  | unexpected (expected : Nfg.Expected) (found : Nfg.Token)
deriving DecidableEq, Repr

/-- What is said of a departure. -/
def Nfg.Departure.message : Nfg.Departure → String
  | .missingHeader => "missing NFG header"
  | .unsupportedVersion version => "unsupported file version " ++ version
  | .unknownNumberKind kind => "unknown number kind " ++ kind
  | .strategyLists players lists =>
    numeral players ++ " players named but " ++ numeral lists ++ " strategy lists given"
  | .strategyCounts players counts =>
    numeral players ++ " players named but " ++ numeral counts ++ " strategy counts given"
  | .unexpected expected found => "expected " ++ expected.text ++ ", found " ++ found.text

/-- Why data are not a game.  Players and profiles count from zero. -/
inductive GameError where
  | noPlayers
  | noStrategies (player : Nat)
  /-- There are `2 ^ 64` pure profiles or more. -/
  | tooLarge
  /-- There are more or fewer payoff lists than pure profiles. -/
  | payoffCount (expected actual : Nat)
  /-- A profile has more or fewer payoffs than there are players. -/
  | payoffWidth (profile expected actual : Nat)
  /-- A list of players does not fit the game. -/
  | shapeMismatch
  | invalidNumber (text : String)
  /-- No outcome has the number, which counts from one. -/
  | unknownOutcome (index : Nat)
  | unexpectedEnd
  | departure (departure : Nfg.Departure)
  /-- The text is in neither of the two formats. -/
  | unknownFormat
  /-- The text is no JSON, or JSON of another layout. -/
  | malformed
  /-- Whether a text of the game is a number cannot be answered. -/
  | fault (fault : Fault)
deriving DecidableEq, Repr

/-- What is said of an error; players and profiles are counted from one. -/
def GameError.message : GameError → String
  | .noPlayers => "Game has no players"
  | .noStrategies player => "Player " ++ numeral (player + 1) ++ " has no strategies"
  | .tooLarge => "Game has too many pure profiles"
  | .payoffCount expected actual =>
    "Expected " ++ numeral expected ++ " payoff vectors, found " ++ numeral actual
  | .payoffWidth profile expected actual =>
    "Profile " ++ numeral (profile + 1) ++ " has " ++ numeral actual
      ++ " payoffs, expected " ++ numeral expected
  | .shapeMismatch => "Player list does not match the game"
  | .invalidNumber text => "Invalid number '" ++ text ++ "'"
  | .unknownOutcome index => "No outcome numbered " ++ numeral index
  | .unexpectedEnd => "Unexpected end of input"
  | .departure d => "Syntax error: " ++ d.message
  | .unknownFormat => "Input is neither an NFG file nor a JSON game"
  | .malformed => "Failed to parse game"
  | .fault f => f.message?.getD ""

/-- The number that a text in a game denotes. -/
def readGameNumber (text : List Char) : Except GameError Rat :=
  match Number.readRational text with
  | .ok (some q) => .ok q
  | .ok none => .error (.invalidNumber (String.ofList text))
  | .error f => .error (.fault f)

theorem readGameNumber_eq_ok {text : List Char} {q : Rat} (h : Number.readRational? text = some q) :
    readGameNumber text = .ok q := by
  rw [readGameNumber, Number.readRational?_eq_some_iff.mp h]

end SimplicialNash
