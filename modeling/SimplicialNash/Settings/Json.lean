/-
  SimplicialNash.Settings.Json
  ────────────────────────────
  Settings as JSON.

      { "grid_resize": count, "leash_length": count, "tolerance": number,
        "max_pivots_per_pass": count, "max_refinements": count,
        "time_limit_secs": number }

  The last three may be missing or null; fields with other names are passed
  over.  Settings may also be an array of all six fields in order.  Settings
  are written without blanks.
-/
import SimplicialNash.Json.Scaled
import SimplicialNash.Json.Package
import SimplicialNash.Settings

namespace SimplicialNash.Settings

open SimplicialNash.Json SimplicialNash.Number

/-! ## §1. Reading -/

/-- A 32-bit count. -/
def word32? : Value → Option UInt32
  | .number n => n.toNat?.bind fun k => if k < UInt32.size then some (UInt32.ofNat k) else none
  | _ => none

/-- A 64-bit count. -/
def word64? : Value → Option UInt64
  | .number n => n.toNat?.bind fun k => if k < UInt64.size then some (UInt64.ofNat k) else none
  | _ => none

/-- A binary64 number. -/
def binary64? : Value → Option Binary64
  | .number n => n.toBinary64?
  | _ => none

/-- A value that may be missing or null. -/
def optional? {α : Type} (read : Value → Option α) : Option Value → Option (Option α)
  | none => some none
  | some .null => some none
  | some v => (read v).map some

/-- Settings with the given fields. -/
def ofFields? (gridResize leashLength tolerance : Value)
    (maxPivots maxRefinements timeLimit : Option Value) : Option Settings := do
  return {
    gridResize := ← word32? gridResize
    leashLength := ← word32? leashLength
    tolerance := ← binary64? tolerance
    maxPivots := ← optional? word64? maxPivots
    maxRefinements := ← optional? word32? maxRefinements
    timeLimit := ← optional? binary64? timeLimit }

/-- Settings, in either form. -/
def ofValue? (v : Value) : Option Settings :=
  match v with
  | .array [g, l, t, p, r, s] => ofFields? g l t (some p) (some r) (some s)
  | .object .. => do
    let fields ← v.asRecord?
    ofFields? (← fields.required? "grid_resize") (← fields.required? "leash_length")
      (← fields.required? "tolerance") (← fields.field? "max_pivots_per_pass")
      (← fields.field? "max_refinements") (← fields.field? "time_limit_secs")
  | _ => none

/-- The settings that a JSON text describes. -/
def readJson? (P : Package) (cs : List Char) : Option Settings := (P.read? cs).bind ofValue?

/-! ## §2. Writing -/

/-- A value that may be missing; null if it is. -/
def optionalText {α : Type} (write : α → List Char) : Option α → List Char
  | none => ['n', 'u', 'l', 'l']
  | some a => write a

/-- The fields in order, with their texts. -/
def jsonFields (s : Settings) : List (String × List Char) := [
  ("grid_resize", digits s.gridResize.toNat),
  ("leash_length", digits s.leashLength.toNat),
  ("tolerance", s.tolerance.jsonText),
  ("max_pivots_per_pass", optionalText (fun n => digits (UInt64.toNat n)) s.maxPivots),
  ("max_refinements", optionalText (fun n => digits (UInt32.toNat n)) s.maxRefinements),
  ("time_limit_secs", optionalText Binary64.jsonText s.timeLimit)]

/-- The settings as JSON. -/
def json (s : Settings) : String :=
  String.ofList ('\x7b' :: Value.commaSeparated
    (s.jsonFields.map fun (name, text) => quote name.toList ++ ':' :: text) ++ ['\x7d'])

end SimplicialNash.Settings
