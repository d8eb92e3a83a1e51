/-
  SimplicialNash.Json.Value
  ─────────────────────────
  JSON values.

  A value holds its strings as the characters that they denote.  Objects keep
  all their fields in order, repeated keys included; what a repeated key means
  is left to whoever reads the object.

  A value is written without blanks, or over lines that are indented.  It is
  read from the tokens of a text by a machine with a stack of containers that
  are still open.
-/
import SimplicialNash.Json.Token

namespace SimplicialNash.Json

open SimplicialNash.Number

/-! ## §1. Values -/

/-- A JSON value.  The keys and the values of an object's fields stand in two
lists of one length.  A string or a key is nothing if it denotes no characters
because a surrogate stands alone in it. -/
inductive Value where
  | null
  | bool (b : Bool)
  | number (n : Numeral)
  | string (text? : Option (List Char))
  | array (items : List Value)
  | object (keys : List (Option (List Char))) (values : List Value)

namespace Value

mutual

/-- How deeply containers are nested in a value; zero for one without. -/
def depth : Value → Nat
  | .array items => depthOfAll items + 1
  | .object _ values => depthOfAll values + 1
  | _ => 0

/-- The greatest depth among values. -/
def depthOfAll : List Value → Nat
  | [] => 0
  | v :: rest => max v.depth (depthOfAll rest)

end

mutual

/-- Whether every string in a value, keys included, denotes characters. -/
def isDecodable : Value → Bool
  | .string text? => text?.isSome
  | .array items => allDecodable items
  | .object keys values => keys.all Option.isSome && allDecodable values
  | _ => true

/-- Whether every string in any of the values denotes characters. -/
def allDecodable : List Value → Bool
  | [] => true
  | v :: rest => v.isDecodable && allDecodable rest

end

/-- The key that marks an object as a number whose digits are given as a string. -/
def numberKey : String := "$serde_json::private::Number"

/-- Whether an object with these keys is marked as a number: the mark is the
first of them. -/
def isNumberMark (keys : List (Option (List Char))) : Bool :=
  match keys with
  | some key :: _ => String.ofList key == numberKey
  | _ => false

mutual

/-- The value with a number in the place of every object that is marked as one.
Such an object has no other field, and its string is a number and nothing
else. -/
def unmarked? : Value → Option Value
  | .array items => (allUnmarked? items).map .array
  | .object keys values =>
    if isNumberMark keys then
      match keys, values with
      | [_], [.string digits] => (digits.bind readNumeral?).map .number
      | _, _ => none
    else (allUnmarked? values).map (.object keys)
  | v => some v

/-- The values, each with numbers in the place of marked objects. -/
def allUnmarked? : List Value → Option (List Value)
  | [] => some []
  | v :: rest => do
    let v ← v.unmarked?
    let rest ← allUnmarked? rest
    return v :: rest

end

/-! ## §2. Writing -/

/-- Texts with commas in between. -/
def commaSeparated (texts : List (List Char)) : List Char := [','].intercalate texts

/-- A field in a list of fields sorted by key: it takes the place of a field
with the same key. -/
def insertField (key : String) (text : List Char) :
    List (String × List Char) → List (String × List Char)
  | [] => [(key, text)]
  | (k, t) :: rest =>
    if key = k then (key, text) :: rest
    else if key < k then (key, text) :: (k, t) :: rest
    else (k, t) :: insertField key text rest

mutual

/-- A value without blanks.  The fields of an object are sorted by key, and of
fields with one key the last is kept. -/
def compactText : Value → List Char
  | .null => ['n', 'u', 'l', 'l']
  | .bool b => if b then ['t', 'r', 'u', 'e'] else ['f', 'a', 'l', 's', 'e']
  | .number n => n.text
  | .string text? => quote (text?.getD [])
  | .array items => '[' :: commaSeparated (compactTexts items) ++ [']']
  | .object keys values =>
    let fields := (keys.zip (compactTexts values)).foldl
      (fun sorted (k, t) => insertField (String.ofList (k.getD [])) t sorted) []
    '\x7b' :: commaSeparated (fields.map fun (k, t) => quote k.toList ++ ':' :: t) ++ ['\x7d']

/-- Values without blanks. -/
def compactTexts : List Value → List (List Char)
  | [] => []
  | v :: rest => v.compactText :: compactTexts rest

end

/-- Items between two marks, each on a line of its own and indented by two
spaces more than the closing mark; the two marks alone if there are none. -/
def block (indent : Nat) (opening closing : Char) (items : List (List Char)) : List Char :=
  if items = [] then [opening, closing]
  else
    let inner := '\n' :: List.replicate (indent + 2) ' '
    let body := items.map fun item => inner ++ item
    opening :: commaSeparated body ++ '\n' :: List.replicate indent ' ' ++ [closing]

/-- A field of an object. -/
def fieldText (key : Option (List Char)) (value : List Char) : List Char :=
  quote (key.getD []) ++ ':' :: ' ' :: value

mutual

/-- A value over lines, the first of which is not indented. -/
def pretty (indent : Nat) : Value → List Char
  | .array items => block indent '[' ']' (prettyAll (indent + 2) items)
  | .object keys values =>
    block indent '\x7b' '\x7d' (List.zipWith fieldText keys (prettyAll (indent + 2) values))
  | v => v.compactText

/-- Values over lines. -/
def prettyAll (indent : Nat) : List Value → List (List Char)
  | [] => []
  | v :: rest => v.pretty indent :: prettyAll indent rest

end

/-! ## §3. Reading -/

/-- A container that is still open, with what it holds so far in reverse. -/
inductive Frame where
  | array (items : List Value)
  /-- An object; between a key and its value there is one key more. -/
  | object (keys : List (Option (List Char))) (values : List Value)

/-- What may come next. -/
inductive Awaited where
  | value
  /-- The first item of an array, or its end. -/
  | valueOrEnd
  /-- The first key of an object, or its end. -/
  | keyOrEnd
  | key
  | colon
  /-- A comma, or the end of the innermost container. -/
  | commaOrEnd
  /-- Nothing: the value is complete. -/
  | nothing (v : Value)

/-- A reader between two tokens: what may come next, and the open containers. -/
structure Reader where
  awaited : Awaited
  stack : List Frame

namespace Reader

/-- The reader before the first token. -/
def start : Reader := ⟨.value, []⟩

/-- A complete value goes into the innermost container. -/
def complete (v : Value) : List Frame → Reader
  | [] => ⟨.nothing v, []⟩
  | .array items :: stack => ⟨.commaOrEnd, .array (v :: items) :: stack⟩
  | .object keys values :: stack => ⟨.commaOrEnd, .object keys (v :: values) :: stack⟩

/-- A token that begins a value. -/
def beginValue? (stack : List Frame) : Token → Option Reader
  | .openBrace => some ⟨.keyOrEnd, .object [] [] :: stack⟩
  | .openBracket => some ⟨.valueOrEnd, .array [] :: stack⟩
  | .string pieces => some (complete (.string (decode? pieces)) stack)
  | .number n => some (complete (.number n) stack)
  | .true => some (complete (.bool true) stack)
  | .false => some (complete (.bool false) stack)
  | .null => some (complete .null stack)
  | _ => none

/-- The next token; none if it may not come next. -/
def step? (r : Reader) (t : Token) : Option Reader :=
  match r.awaited, r.stack, t with
  | .value, stack, t => beginValue? stack t
  | .valueOrEnd, .array items :: stack, .closeBracket =>
    some (complete (.array items.reverse) stack)
  | .valueOrEnd, stack, t => beginValue? stack t
  | .keyOrEnd, .object keys values :: stack, .closeBrace =>
    some (complete (.object keys.reverse values.reverse) stack)
  | .keyOrEnd, .object keys values :: stack, .string k =>
    some ⟨.colon, .object (decode? k :: keys) values :: stack⟩
  | .key, .object keys values :: stack, .string k =>
    some ⟨.colon, .object (decode? k :: keys) values :: stack⟩
  | .colon, stack, .colon => some ⟨.value, stack⟩
  | .commaOrEnd, .array items :: stack, .comma => some ⟨.value, .array items :: stack⟩
  | .commaOrEnd, .array items :: stack, .closeBracket =>
    some (complete (.array items.reverse) stack)
  | .commaOrEnd, .object keys values :: stack, .comma =>
    some ⟨.key, .object keys values :: stack⟩
  | .commaOrEnd, .object keys values :: stack, .closeBrace =>
    some (complete (.object keys.reverse values.reverse) stack)
  | _, _, _ => none

/-- All tokens, one after another. -/
def run? : Reader → List Token → Option Reader
  | r, [] => some r
  | r, t :: rest => (r.step? t).bind fun r => run? r rest

end Reader

/-- The value that a text consists of. -/
def read? (cs : List Char) : Option Value := do
  let tokens ← tokens? cs
  let r ← Reader.run? .start tokens
  match r.awaited with
  | .nothing v => some v
  | _ => none

/-! ## §4. Access -/

/-- The characters of a string. -/
def asText? : Value → Option (List Char)
  | .string text? => text?
  | _ => none

/-- The items of an array. -/
def asArray? : Value → Option (List Value)
  | .array items => some items
  | _ => none

/-- A record's fields by name. -/
abbrev Record := List (List Char × Value)

/-- The fields of an object, if all keys denote characters. -/
def asRecord? : Value → Option Record
  | .object keys values => (keys.mapM id).map fun ks => ks.zip values
  | _ => none

/-- What a record says of a field: nothing, or one value.  A field may not be
repeated. -/
def Record.field? (r : Record) (name : String) : Option (Option Value) :=
  match r.filter fun (k, _) => String.ofList k == name with
  | [] => some none
  | [(_, v)] => some (some v)
  | _ => none

/-- The value of a field that has to be there once. -/
def Record.required? (r : Record) (name : String) : Option Value :=
  (Record.field? r name).bind id

end Value

end SimplicialNash.Json
