/-
  SimplicialNash.Json.Text
  ────────────────────────
  Strings of JSON texts.

  Between its quotes a string consists of plain characters, short escapes and
  escapes by UTF-16 code unit.  A reader keeps the code units as they stand:
  `decode?` joins each pair of surrogates to one character, and fails if a
  surrogate stands alone.  A writer escapes quotes, backslashes and control
  characters, and nothing else.
-/
import SimplicialNash.Number.Digits

namespace SimplicialNash.Json

/-! ## §1. Code units -/

/-- A part of a string: a character, or a UTF-16 code unit escaped by number. -/
inductive Piece where
  | plain (c : Char)
  | unit (n : Nat)
deriving DecidableEq, Repr

/-- The code units that begin a pair. -/
def isHighSurrogate (n : Nat) : Bool := 0xD800 ≤ n && n < 0xDC00

/-- The code units that end a pair. -/
def isLowSurrogate (n : Nat) : Bool := 0xDC00 ≤ n && n < 0xE000

/-- The character that a pair of surrogates encodes. -/
def joinSurrogates (high low : Nat) : Char :=
  Char.ofNat (0x10000 + (high - 0xD800) * 0x400 + (low - 0xDC00))

/-- The characters of a string; none if a surrogate stands alone. -/
def decode? : List Piece → Option (List Char)
  | [] => some []
  | .plain c :: rest => (decode? rest).map (c :: ·)
  | .unit n :: .unit m :: rest =>
    if isHighSurrogate n then
      if isLowSurrogate m then (decode? rest).map (joinSurrogates n m :: ·) else none
    else if isLowSurrogate n then none
    else (decode? (.unit m :: rest)).map (Char.ofNat n :: ·)
  | .unit n :: rest =>
    if isHighSurrogate n || isLowSurrogate n then none
    else (decode? rest).map (Char.ofNat n :: ·)

/-! ## §2. Escapes -/

/-- The character that a short escape stands for. -/
def shortEscape? (c : Char) : Option Char :=
  match c with
  | '"' => some '"'
  | '\\' => some '\\'
  | '/' => some '/'
  | 'b' => some '\x08'
  | 'f' => some '\x0c'
  | 'n' => some '\n'
  | 'r' => some '\r'
  | 't' => some '\t'
  | _ => none

/-- The value of a hexadecimal digit, in either case. -/
def hexValue? (c : Char) : Option Nat :=
  let n := c.toNat
  if 48 ≤ n && n ≤ 57 then some (n - 48)
  else if 65 ≤ n && n ≤ 70 then some (n - 55)
  else if 97 ≤ n && n ≤ 102 then some (n - 87)
  else none

/-- A character as it is written within quotes. -/
def escapeChar (c : Char) : List Char :=
  match c with
  | '"' => ['\\', '"']
  | '\\' => ['\\', '\\']
  | '\x08' => ['\\', 'b']
  | '\x0c' => ['\\', 'f']
  | '\n' => ['\\', 'n']
  | '\r' => ['\\', 'r']
  | '\t' => ['\\', 't']
  | _ =>
    if c.toNat < 0x20 then
      ['\\', 'u', '0', '0', (c.toNat / 16).digitChar, (c.toNat % 16).digitChar]
    else [c]

/-- A text as a string: escaped and in quotes. -/
def quote (cs : List Char) : List Char := '"' :: cs.flatMap escapeChar ++ ['"']

end SimplicialNash.Json
