/-
  SimplicialNash.Json.Token
  ─────────────────────────
  The tokens of JSON texts.

  A text is scanned character by character: `Scanner.step` is the transition,
  and `tokens?` folds it over the text.  Whatever is neither a mark nor a
  string runs up to the next blank, mark or quote, and has to be a number or
  one of the three words.
-/
import SimplicialNash.Text.Lines
import SimplicialNash.Json.Text

namespace SimplicialNash.Json

open SimplicialNash.Text SimplicialNash.Number

/-! ## §1. Numbers -/

/-- A number as it is written: its digits, and its exponent with a sign. -/
structure Numeral where
  negative : Bool
  whole : List Char
  fraction : Option (List Char)
  exponent : Option (Bool × List Char)
deriving DecidableEq, Repr

/-- Digits, of which there is at least one. -/
def readDigitList? (cs : List Char) : Option (List Char) :=
  if cs ≠ [] ∧ cs.all isDigit then some cs else none

/-- The digits before the point: no zero in front of others. -/
def readWhole? (cs : List Char) : Option (List Char) :=
  match cs with
  | '0' :: _ :: _ => none
  | _ => readDigitList? cs

/-- An exponent's sign, as whether it is a minus, and its digits. -/
def readExponent? (cs : List Char) : Option (Bool × List Char) :=
  match cs with
  | '-' :: rest => (readDigitList? rest).map (true, ·)
  | '+' :: rest => (readDigitList? rest).map (false, ·)
  | _ => (readDigitList? cs).map (false, ·)

/-- A number, if the text is one. -/
def readNumeral? (cs : List Char) : Option Numeral := do
  let (negative, unsigned) := match cs with
    | '-' :: rest => (true, rest)
    | _ => (false, cs)
  let (mantissa, exponent) ← match cutAt? (fun c => c == 'e' || c == 'E') unsigned with
    | none => some (unsigned, none)
    | some (mantissa, e) => (readExponent? e).map fun x => (mantissa, some x)
  match cutAt? (· == '.') mantissa with
  | none => return ⟨negative, ← readWhole? mantissa, none, exponent⟩
  | some (whole, fraction) =>
    return ⟨negative, ← readWhole? whole, some (← readDigitList? fraction), exponent⟩

/-- Whether the number is written without fraction and exponent. -/
def Numeral.isInteger (n : Numeral) : Bool := n.fraction.isNone && n.exponent.isNone

/-- The number digit for digit, its exponent with a sign. -/
def Numeral.text (n : Numeral) : List Char :=
  let sign := if n.negative then ['-'] else []
  let fraction := match n.fraction with
    | none => []
    | some ds => '.' :: ds
  let exponent := match n.exponent with
    | none => []
    | some (negative, ds) => 'e' :: (if negative then '-' else '+') :: ds
  sign ++ n.whole ++ fraction ++ exponent

/-! ## §2. Tokens -/

/-- A token of a JSON text. -/
inductive Token where
  | openBrace
  | closeBrace
  | openBracket
  | closeBracket
  | comma
  | colon
  | string (pieces : List Piece)
  | number (n : Numeral)
  | true
  | false
  | null
deriving DecidableEq, Repr

/-- The characters between tokens. -/
def isBlank (c : Char) : Bool := c == ' ' || c == '\t' || c == '\n' || c == '\r'

/-- The token that is one character. -/
def mark? (c : Char) : Option Token :=
  match c with
  | '\x7b' => some .openBrace
  | '\x7d' => some .closeBrace
  | '[' => some .openBracket
  | ']' => some .closeBracket
  | ',' => some .comma
  | ':' => some .colon
  | _ => none

/-- A token that is neither a mark nor a string. -/
def bare? (cs : List Char) : Option Token :=
  if cs = ['t', 'r', 'u', 'e'] then some .true
  else if cs = ['f', 'a', 'l', 's', 'e'] then some .false
  else if cs = ['n', 'u', 'l', 'l'] then some .null
  else (readNumeral? cs).map .number

/-! ## §3. The scanner -/

/-- Where a scanner stands.  What belongs to the token at hand is kept in
reverse. -/
inductive Place where
  | between
  | inBare (text : List Char)
  | inString (pieces : List Piece)
  /-- Directly after a backslash. -/
  | escaped (pieces : List Piece)
  /-- Within the digits of a code unit, of which `missing` are still to come. -/
  | inUnit (pieces : List Piece) (missing value : Nat)
  /-- After a character that no token can have. -/
  | failed
deriving DecidableEq, Repr

/-- A place in the text, and the complete tokens before it in reverse. -/
structure Scanner where
  place : Place
  found : List Token
deriving DecidableEq, Repr

namespace Scanner

/-- The scanner before the first character. -/
def start : Scanner := ⟨.between, []⟩

/-- A character that does not continue a token. -/
def begin (found : List Token) (c : Char) : Scanner :=
  if isBlank c then ⟨.between, found⟩
  else if c = '"' then ⟨.inString [], found⟩
  else
    match mark? c with
    | some t => ⟨.between, t :: found⟩
    | none => ⟨.inBare [c], found⟩

/-- The next character. -/
def step (s : Scanner) (c : Char) : Scanner :=
  match s.place with
  | .between => begin s.found c
  | .inBare text =>
    if isBlank c || c == '"' || (mark? c).isSome then
      match bare? text.reverse with
      | some t => begin (t :: s.found) c
      | none => ⟨.failed, s.found⟩
    else ⟨.inBare (c :: text), s.found⟩
  | .inString pieces =>
    if c = '"' then ⟨.between, .string pieces.reverse :: s.found⟩
    else if c = '\\' then ⟨.escaped pieces, s.found⟩
    else if c.toNat < 0x20 then ⟨.failed, s.found⟩
    else ⟨.inString (.plain c :: pieces), s.found⟩
  | .escaped pieces =>
    if c = 'u' then ⟨.inUnit pieces 4 0, s.found⟩
    else
      match shortEscape? c with
      | some d => ⟨.inString (.plain d :: pieces), s.found⟩
      | none => ⟨.failed, s.found⟩
  | .inUnit pieces missing value =>
    match hexValue? c with
    | none => ⟨.failed, s.found⟩
    | some d =>
      let value := 16 * value + d
      if missing = 1 then ⟨.inString (.unit value :: pieces), s.found⟩
      else ⟨.inUnit pieces (missing - 1) value, s.found⟩
  | .failed => s

/-- The end of the text: all tokens, unless one of them is incomplete. -/
def finish? (s : Scanner) : Option (List Token) :=
  match s.place with
  | .between => some s.found.reverse
  | .inBare text => (bare? text.reverse).map fun t => (t :: s.found).reverse
  | _ => none

end Scanner

/-- The tokens of a text, if it consists of tokens. -/
def tokens? (cs : List Char) : Option (List Token) :=
  (cs.foldl Scanner.step Scanner.start).finish?

end SimplicialNash.Json
