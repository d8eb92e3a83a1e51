/-
  SimplicialNash.Game.Reader
  ──────────────────────────
  Reading a game in whichever of the two formats it is written.
-/
import SimplicialNash.Game.Json
import SimplicialNash.Nfg.Reader

namespace SimplicialNash

open SimplicialNash.Text

/-- The game that a text describes.  After leading blanks, a strategic-form
game file begins with the name of its format, and JSON with a brace. -/
def readGame (P : Json.Package) (text : String) : Except GameError TableGame :=
  let cs := trimStart text.toList
  match cs with
  | 'N' :: 'F' :: 'G' :: _ => Nfg.readGame cs
  | '\x7b' :: _ => readJsonGame P cs
  | _ => .error .unknownFormat

end SimplicialNash
