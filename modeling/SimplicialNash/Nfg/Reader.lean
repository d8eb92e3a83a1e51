/-
  SimplicialNash.Nfg.Reader
  ─────────────────────────
  Reading strategic-form game files.

      file     := NFG 1 (R | D) title '{' name* '}' '{' players '}' [comment] payoffs
      players  := count*                       (as many as names)
                | ('{' name* '}')*             (as many as names)
      payoffs  := number*                      (player by player, profile by profile)
                | '{' outcome* '}' count*      (one per profile)
      outcome  := '{' name number* '}'         (one per player)

  Title, names and comment are quoted.  Profiles come in the order of their
  numbers.  In the second layout of the payoffs each profile names an outcome,
  counted from one; number zero gives everyone nothing.

  A reader takes the tokens ahead and gives what it has read and the tokens
  that follow.  Main definition: `readGame`.
-/
import SimplicialNash.Game.Table
import SimplicialNash.Nfg.Token
import SimplicialNash.Number.Literal

namespace SimplicialNash.Nfg

open SimplicialNash.Number

/-- What a reader has read, and the tokens after it. -/
abbrev Reading (α : Type) := α × List Token

/-- The error for a token that stands in the place of another. -/
def unexpected (expected : Expected) (found : Token) : GameError :=
  .departure (.unexpected expected found)

/-! ## §1. Single tokens -/

/-- An opening brace. -/
def opening : List Token → Except GameError (Reading Unit)
  | [] => .error .unexpectedEnd
  | .opening :: rest => .ok ((), rest)
  | other :: _ => .error (unexpected .opening other)

/-- A closing brace. -/
def closing : List Token → Except GameError (Reading Unit)
  | [] => .error .unexpectedEnd
  | .closing :: rest => .ok ((), rest)
  | other :: _ => .error (unexpected .closing other)

/-- A quoted text. -/
def quoted : List Token → Except GameError (Reading String)
  | [] => .error .unexpectedEnd
  | .quoted text :: rest => .ok (String.ofList text, rest)
  | other :: _ => .error (unexpected .quoted other)

/-- A word. -/
def word : List Token → Except GameError (Reading (List Char))
  | [] => .error .unexpectedEnd
  | .word text :: rest => .ok (text, rest)
  | other :: _ => .error (unexpected .word other)

/-- A natural number below `2 ^ 64`, with or without a plus sign. -/
def readCount? (cs : List Char) : Option Nat :=
  let unsigned := match cs with
    | '+' :: rest => rest
    | _ => cs
  (readDigits? unsigned).bind fun n => if n < UInt64.size then some n else none

/-- A word that is a count. -/
def count (tokens : List Token) : Except GameError (Reading Nat) := do
  let (text, rest) ← word tokens
  match readCount? text with
  | some n => .ok (n, rest)
  | none => .error (.invalidNumber (String.ofList text))

/-- A word that is a rational number. -/
def number (tokens : List Token) : Except GameError (Reading Rat) := do
  let (text, rest) ← word tokens
  let q ← readGameNumber text
  .ok (q, rest)

/-! ## §2. Sequences -/

/-- A given number of things, one after another. -/
def times {α : Type} (read : List Token → Except GameError (Reading α)) :
    Nat → List Token → Except GameError (Reading (List α))
  | 0, tokens => .ok ([], tokens)
  | n + 1, tokens => do
    let (first, rest) ← read tokens
    let (others, rest) ← times read n rest
    .ok (first :: others, rest)

/-- Quoted texts up to a closing brace. -/
def quotedUntilClosing : List Token → Except GameError (Reading (List String))
  | [] => .error .unexpectedEnd
  | .closing :: rest => .ok ([], rest)
  | .quoted text :: rest => do
    let (others, rest) ← quotedUntilClosing rest
    .ok (String.ofList text :: others, rest)
  | other :: _ => .error (unexpected .quoted other)

/-- Counts up to a closing brace. -/
def countsUntilClosing : List Token → Except GameError (Reading (List Nat))
  | [] => .error .unexpectedEnd
  | .closing :: rest => .ok ([], rest)
  | .word text :: rest =>
    match readCount? text with
    | none => .error (.invalidNumber (String.ofList text))
    | some n => do
      let (others, rest) ← countsUntilClosing rest
      .ok (n :: others, rest)
  | other :: _ => .error (unexpected .word other)

/-- Lists of quoted texts up to a closing brace, each list in braces of its
own.  Within a list, what is read of it comes first in the result. -/
def quotedLists : (within : Bool) → List Token → Except GameError (Reading (List (List String)))
  | _, [] => .error .unexpectedEnd
  | false, .closing :: rest => .ok ([], rest)
  | false, .opening :: rest => quotedLists true rest
  | false, other :: _ => .error (unexpected .opening other)
  | true, .closing :: rest => do
    let (others, rest) ← quotedLists false rest
    .ok ([] :: others, rest)
  | true, .quoted text :: rest => do
    let (lists, rest) ← quotedLists true rest
    .ok ((String.ofList text :: lists.headD []) :: lists.tail, rest)
  | true, other :: _ => .error (unexpected .quoted other)

/-- Where the reader stands among the outcomes. -/
inductive OutcomePlace where
  /-- Between two outcomes. -/
  | between
  /-- Before an outcome's name. -/
  | name
  /-- Before the last `missing` numbers of an outcome. -/
  | numbers (missing : Nat)

/-- Outcomes up to a closing brace, each in braces of its own with a name and
`width` numbers.  Within an outcome, what is read of it comes first in the
result. -/
def outcomes (width : Nat) :
    OutcomePlace → List Token → Except GameError (Reading (List (List Rat)))
  | _, [] => .error .unexpectedEnd
  | .between, .closing :: rest => .ok ([], rest)
  | .between, .opening :: rest => outcomes width .name rest
  | .between, other :: _ => .error (unexpected .opening other)
  | .name, .quoted _ :: rest => outcomes width (.numbers width) rest
  | .name, other :: _ => .error (unexpected .quoted other)
  | .numbers 0, .closing :: rest => do
    let (others, rest) ← outcomes width .between rest
    .ok ([] :: others, rest)
  | .numbers 0, other :: _ => .error (unexpected .closing other)
  | .numbers (missing + 1), .word text :: rest => do
    let q ← readGameNumber text
    let (lists, rest) ← outcomes width (.numbers missing) rest
    .ok ((q :: lists.headD []) :: lists.tail, rest)
  | .numbers (_ + 1), other :: _ => .error (unexpected .word other)

/-! ## §3. The parts of a file -/

/-- Everything up to the title. -/
def header (tokens : List Token) : Except GameError (Reading String) := do
  let (format, rest) ← word tokens
  if format ≠ ['N', 'F', 'G'] then .error (.departure .missingHeader)
  else
    let (version, rest) ← word rest
    if version ≠ ['1'] then
      .error (.departure (.unsupportedVersion (String.ofList version)))
    else
      let (kind, rest) ← word rest
      if kind ≠ ['R'] ∧ kind ≠ ['D'] then
        .error (.departure (.unknownNumberKind (String.ofList kind)))
      else quoted rest

/-- The players with the given names, after the brace that opens their
strategies. -/
def strategies (names : List String) (tokens : List Token) :
    Except GameError (Reading (List PlayerInfo)) :=
  match tokens with
  | .opening :: _ => do
    let (lists, rest) ← quotedLists false tokens
    if lists.length ≠ names.length then
      .error (.departure (.strategyLists names.length lists.length))
    else .ok (List.zipWith PlayerInfo.mk names lists, rest)
  | _ => do
    let (counts, rest) ← countsUntilClosing tokens
    if counts.length ≠ names.length then
      .error (.departure (.strategyCounts names.length counts.length))
    else .ok (List.zipWith PlayerInfo.numbered names counts, rest)

/-- A quoted text, if there is one. -/
def skipComment : List Token → List Token
  | .quoted _ :: rest => rest
  | tokens => tokens

/-- The payoffs of the outcome with a number. -/
def outcomeRow (width : Nat) (table : List (List Rat)) (tokens : List Token) :
    Except GameError (Reading (List Rat)) := do
  let (index, rest) ← count tokens
  match index with
  | 0 => .ok (List.replicate width 0, rest)
  | k + 1 =>
    match table[k]? with
    | some row => .ok (row, rest)
    | none => .error (.unknownOutcome (k + 1))

/-- The payoffs of `profiles` pure profiles, for `width` players. -/
def payoffRows (width profiles : Nat) (tokens : List Token) :
    Except GameError (Reading (List (List Rat))) :=
  match tokens with
  | .opening :: rest => do
    let (table, rest) ← outcomes width .between rest
    times (outcomeRow width table) profiles rest
  | _ => times (times number width) profiles tokens

/-- The game that a list of tokens describes. -/
def readTokens (tokens : List Token) : Except GameError TableGame := do
  let (title, rest) ← header tokens
  let (_, rest) ← opening rest
  let (names, rest) ← quotedUntilClosing rest
  let (_, rest) ← opening rest
  let (players, rest) ← strategies names rest
  if players = [] then .error .noPlayers
  else
    match (PlayerInfo.shape players).countProfiles? with
    | none => .error .tooLarge
    | some profiles =>
      let (payoffs, rest) ← payoffRows players.length profiles (skipComment rest)
      match rest with
      | extra :: _ => .error (unexpected .endOfFile extra)
      | [] => TableGame.ofPayoffs title players payoffs

/-- The game that a text describes. -/
def readGame (cs : List Char) : Except GameError TableGame :=
  match tokens? cs with
  | none => .error .unexpectedEnd
  | some tokens => readTokens tokens

end SimplicialNash.Nfg
