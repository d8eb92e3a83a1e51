/-
  SimplicialNash.Json.Package
  ───────────────────────────
  What is used of a JSON package.

  Games are read from JSON and written as JSON by a package that is not part of
  this development.  It enters as its three functions.  What is relied on of
  them is one property, that a value is read back from what is written for it
  (`Package.ReadsBack`); it is asked for only of values that hold nothing but
  strings, which is all that a written game holds.

  The reader and the writers of `Json.Value` are such a package (`standard`),
  and the program is run with it.
-/
import SimplicialNash.Json.Value

namespace SimplicialNash.Json

/-! ## §1. Values of strings -/

namespace Value

/-- The greatest depth to which containers may be nested. -/
def maxNesting : Nat := 127

/-- The keys of an object that is read as an object: all of them denote
characters, none is repeated, and they are no mark of a number. -/
def areFieldNames (keys : List (Option (List Char))) : Bool :=
  keys.all Option.isSome && decide (keys.Pairwise (· ≠ ·)) && !isNumberMark keys

mutual

/-- Whether a value holds strings, and containers of such values, and nothing
else. -/
def isStrings : Value → Bool
  | .string text? => text?.isSome
  | .array items => allStrings items
  | .object keys values =>
    areFieldNames keys && keys.length == values.length && allStrings values
  | _ => false

/-- Whether all values are of this kind. -/
def allStrings : List Value → Bool
  | [] => true
  | v :: rest => v.isStrings && allStrings rest

end

end Value

/-! ## §2. The package -/

/-- The functions of a JSON package. -/
structure Package where
  /-- The value that a text consists of. -/
  read? : List Char → Option Value
  /-- A value over lines, unless it cannot be written. -/
  write? : Value → Option (List Char)
  /-- A value without blanks; of a number, the number digit for digit. -/
  compact : Value → List Char

/-- **A value is read back** from what is written for it, if it holds nothing
but strings and is not nested too deeply. -/
def Package.ReadsBack (P : Package) : Prop :=
  ∀ v : Value, v.isStrings = true → v.depth ≤ Value.maxNesting →
    ∃ cs, P.write? v = some cs ∧ P.read? cs = some v

/-- The package that the program is run with.  A value with a string that
denotes no characters is not written. -/
def standard : Package where
  read? := Value.read?
  write? v := if v.isDecodable then some (v.pretty 0) else none
  compact := Value.compactText

end SimplicialNash.Json
