/-
  SimplicialNash.Nfg.Token
  ────────────────────────
  The tokens of strategic-form game files.

  A file consists of braces, quoted texts and words.  Blank characters and
  commas separate tokens and mean nothing else.  Within quotes a backslash
  stands before a character that is taken as it is.  A word ends before a
  blank, a comma, a brace or a quote.

  The scanner reads one character at a time: `Scanner.step` is its transition,
  and `tokens?` folds it over the text.
-/
import SimplicialNash.Text.Blank

namespace SimplicialNash.Nfg

open SimplicialNash.Text

/-- A token of a strategic-form game file. -/
inductive Token where
  /-- An opening brace. -/
  | opening
  /-- A closing brace. -/
  | closing
  /-- What stood between quotes. -/
  | quoted (text : List Char)
  /-- A keyword or a number. -/
  | word (text : List Char)
deriving DecidableEq, Repr

/-- The characters between tokens. -/
def isSeparator (c : Char) : Bool := isBlank c || c == ','

/-- The characters that words consist of. -/
def isWordChar (c : Char) : Bool := !(isSeparator c || c == '\x7b' || c == '\x7d' || c == '"')

/-! ## §1. The scanner -/

/-- Where a scanner stands.  The characters of the token at hand are kept in
reverse. -/
inductive Place where
  | between
  | inWord (text : List Char)
  | inQuotes (text : List Char)
  /-- Directly after a backslash within quotes. -/
  | escaped (text : List Char)
deriving DecidableEq, Repr

/-- A place in the text, and the complete tokens before it in reverse. -/
structure Scanner where
  place : Place
  found : List Token
deriving DecidableEq, Repr

namespace Scanner

/-- The scanner before the first character. -/
def start : Scanner := ⟨.between, []⟩

/-- A character that does not continue a token. -/
def begin (found : List Token) (c : Char) : Scanner :=
  if isSeparator c then ⟨.between, found⟩
  else if c = '\x7b' then ⟨.between, .opening :: found⟩
  else if c = '\x7d' then ⟨.between, .closing :: found⟩
  else if c = '"' then ⟨.inQuotes [], found⟩
  else ⟨.inWord [c], found⟩

/-- The next character. -/
def step (s : Scanner) (c : Char) : Scanner :=
  match s.place with
  | .between => begin s.found c
  | .inWord text =>
    if isWordChar c then ⟨.inWord (c :: text), s.found⟩
    else begin (.word text.reverse :: s.found) c
  | .inQuotes text =>
    if c = '"' then ⟨.between, .quoted text.reverse :: s.found⟩
    else if c = '\\' then ⟨.escaped text, s.found⟩
    else ⟨.inQuotes (c :: text), s.found⟩
  | .escaped text => ⟨.inQuotes (c :: text), s.found⟩

/-- The end of the text: all tokens, unless it comes within quotes. -/
def finish? (s : Scanner) : Option (List Token) :=
  match s.place with
  | .between => some s.found.reverse
  | .inWord text => some (.word text.reverse :: s.found).reverse
  | _ => none

end Scanner

/-- The tokens of a text; none if it ends within quotes. -/
def tokens? (cs : List Char) : Option (List Token) :=
  (cs.foldl Scanner.step Scanner.start).finish?

/-! ## §2. Tokens as they are shown -/

/-- A token in quotes: a quoted text in double ones, all others in single ones. -/
def Token.text : Token → String
  | .opening => "'\x7b'"
  | .closing => "'\x7d'"
  | .quoted text => "\"" ++ String.ofList text ++ "\""
  | .word text => "'" ++ String.ofList text ++ "'"

end SimplicialNash.Nfg
