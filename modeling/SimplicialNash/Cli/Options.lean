/-
  SimplicialNash.Cli.Options
  ──────────────────────────
  The options of the command line.

  Short options may stand together after one dash; one that takes a value ends
  the group, and its value follows directly, after an equals sign, or as the
  next argument.  Long options take their value after an equals sign or as the
  next argument.  A value that is an argument of its own may not begin with a
  dash, unless it is a dash.  No option may be given twice, and there are no
  other arguments.  A count of starting points needs a denominator.

  Arguments are taken in order; a request for help or for the version is
  answered as soon as it is met.
-/
import SimplicialNash.Number.Nearest

namespace SimplicialNash.Cli

open SimplicialNash.Number SimplicialNash.Text

/-! ## §1. Options -/

/-- What can be set on the command line. -/
inductive Flag where
  | decimals
  | gridResize
  | denominator
  | count
  | startFile
  | quiet
  | verbose
  | seed
  | leash
  | maxPivots
  | timeLimit
  | help
  | version
deriving DecidableEq, Repr

/-- Whether an option takes a value. -/
def Flag.takesValue : Flag → Bool
  | .quiet | .verbose | .help | .version => false
  | _ => true

/-- The option with a short name. -/
def Flag.ofShort? : Char → Option Flag
  | 'd' => some .decimals
  | 'g' => some .gridResize
  | 'r' => some .denominator
  | 'n' => some .count
  | 's' => some .startFile
  | 'q' => some .quiet
  | 'v' => some .verbose
  | 'h' => some .help
  | 'V' => some .version
  | _ => none

/-- The option with a long name. -/
def Flag.ofLong? (name : String) : Option Flag :=
  if name == "seed" then some .seed
  else if name == "leash" then some .leash
  else if name == "max-pivots" then some .maxPivots
  else if name == "time-limit" then some .timeLimit
  else if name == "help" then some .help
  else if name == "version" then some .version
  else none

/-- The values of all options. -/
structure Options where
  /-- How many decimals weights are shown with; exact if not given. -/
  decimals : Option Nat
  gridResize : UInt32
  /-- The denominator of random starting points. -/
  denominator : Option Nat
  /-- The number of random starting points. -/
  count : Option Nat
  startFile : Option String
  quiet : Bool
  verbose : Bool
  seed : Option UInt64
  leash : UInt32
  maxPivots : Option UInt64
  /-- Seconds for each starting point. -/
  timeLimit : Option Binary64
deriving DecidableEq, Repr

/-- The options if none is given. -/
def Options.default : Options where
  decimals := none
  gridResize := 2
  denominator := none
  count := none
  startFile := none
  quiet := false
  verbose := false
  seed := none
  leash := 32000
  maxPivots := none
  timeLimit := none

/-! ## §2. Values -/

/-- A natural number below a bound, with or without a plus sign. -/
def natural? (bound : Nat) (cs : List Char) : Option Nat :=
  let unsigned := match cs with
    | '+' :: rest => rest
    | _ => cs
  (readDigits? unsigned).bind fun n => if n < bound then some n else none

/-- A 32-bit word; a sign is read, so that minus zero is zero. -/
def word32? (cs : List Char) : Option UInt32 :=
  (readSigned? cs).bind fun z =>
    if 0 ≤ z ∧ z < UInt32.size then some (UInt32.ofNat z.toNat) else none

/-- A 64-bit word. -/
def word64? (cs : List Char) : Option UInt64 := (natural? UInt64.size cs).map UInt64.ofNat

/-- The options with another value for one of them, if the value is one. -/
def Options.assign? (o : Options) (flag : Flag) (value : List Char) : Option Options :=
  match flag with
  | .decimals => (natural? UInt64.size value).map fun n => { o with decimals := some n }
  | .gridResize => (word32? value).map fun n => { o with gridResize := n }
  | .denominator =>
    (natural? UInt32.size value).bind fun n =>
      if n = 0 then none else some { o with denominator := some n }
  | .count => (word32? value).map fun n => { o with count := some n.toNat }
  | .startFile =>
    if value = [] then none else some { o with startFile := some (String.ofList value) }
  | .seed => (word64? value).map fun n => { o with seed := some n }
  | .leash => (word32? value).map fun n => { o with leash := n }
  | .maxPivots => (word64? value).map fun n => { o with maxPivots := some n }
  | .timeLimit => (Binary64.read? value).map fun x => { o with timeLimit := some x }
  | .quiet | .verbose | .help | .version => none

/-! ## §3. Arguments -/

/-- What the command line asks for. -/
inductive Request where
  /-- To solve a game. -/
  | solve (o : Options)
  | help
  | version
deriving DecidableEq, Repr

/-- Where the reading of arguments stands. -/
structure Reading where
  options : Options
  /-- The options met so far. -/
  met : List Flag
  /-- The option whose value is the next argument. -/
  pending : Option Flag
  /-- Whether two dashes have ended the options. -/
  ended : Bool
deriving DecidableEq, Repr

/-- The result of one argument: reading goes on, or it is answered at once, or
it is no proper use. -/
inductive Verdict where
  | going (r : Reading)
  | answered (request : Request)
  | refused
deriving DecidableEq, Repr

namespace Reading

/-- Reading before the first argument. -/
def start : Reading := ⟨Options.default, [], none, false⟩

/-- An option with its value. -/
def take (r : Reading) (flag : Flag) (value : List Char) : Verdict :=
  if flag ∈ r.met then .refused
  else
    match r.options.assign? flag value with
    | some o => .going { r with options := o, met := flag :: r.met, pending := none }
    | none => .refused

/-- An option without value. -/
def raise (r : Reading) (flag : Flag) : Verdict :=
  if flag ∈ r.met then .refused
  else
    match flag with
    | .help => .answered .help
    | .version => .answered .version
    | .quiet => .going { r with options.quiet := true, met := flag :: r.met }
    | .verbose => .going { r with options.verbose := true, met := flag :: r.met }
    | _ => .refused

/-- Short options that stand together. -/
def shorts (r : Reading) : List Char → Verdict
  | [] => .going r
  | c :: rest =>
    match Flag.ofShort? c with
    | none => .refused
    | some flag =>
      if flag.takesValue then
        match rest with
        | [] => if flag ∈ r.met then .refused else .going { r with pending := some flag }
        | '=' :: value => r.take flag value
        | value => r.take flag value
      else
        match r.raise flag with
        | .going r => shorts r rest
        | other => other

/-- A long option, without its dashes. -/
def long (r : Reading) (cs : List Char) : Verdict :=
  let (name, value) := match cutAt? (· == '=') cs with
    | some (name, value) => (name, some value)
    | none => (cs, none)
  match Flag.ofLong? (String.ofList name), value with
  | none, _ => .refused
  | some flag, some value => if flag.takesValue then r.take flag value else .refused
  | some flag, none =>
    if flag.takesValue then
      if flag ∈ r.met then .refused else .going { r with pending := some flag }
    else r.raise flag

/-- The next argument. -/
def argument (r : Reading) (cs : List Char) : Verdict :=
  if r.ended then .refused
  else
    match cs, r.pending with
    | ['-', '-'], none => .going { r with ended := true }
    | ['-'], some flag => r.take flag cs
    | ['-'], none => .refused
    | '-' :: _, some _ => .refused
    | '-' :: '-' :: name, none => r.long name
    | '-' :: group, none => r.shorts group
    | _, some flag => r.take flag cs
    | _, none => .refused

/-- The end of the arguments. -/
def finish? (r : Reading) : Option Request :=
  if r.pending.isSome || (r.options.count.isSome && r.options.denominator.isNone) then none
  else some (.solve r.options)

end Reading

/-- What the arguments ask for, from a point of reading on. -/
def readFrom? (r : Reading) : List (List Char) → Option Request
  | [] => r.finish?
  | cs :: rest =>
    match r.argument cs with
    | .going r => readFrom? r rest
    | .answered request => some request
    | .refused => none

/-- What the arguments ask for; nothing if they are no proper use. -/
def readArguments? (arguments : List String) : Option Request :=
  readFrom? .start (arguments.map String.toList)

end SimplicialNash.Cli
