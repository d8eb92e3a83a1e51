/-
  SimplicialNash.Cli.Job
  ──────────────────────
  What the command line program does.

  The program reads a game from its input, prepares a solver and the starting
  points, and solves from each of them in turn.  It prints one line per
  starting point; with intermediate output also the starting point itself and
  the answer of every pass, labelled by its mesh.  Notices go to the error
  stream; those that may come in numbers are records.

  Nothing here reads or prints: files, the clock and a seed are handed in, and
  what is to be written is handed back.
-/
import SimplicialNash.Capacity
import SimplicialNash.Cli.Options
import SimplicialNash.Cli.Transcript
import SimplicialNash.Game.Reader
import SimplicialNash.Refinement

namespace SimplicialNash.Cli

open SimplicialNash.Number SimplicialNash.Random

/-! ## §1. Surroundings -/

/-- Why a file cannot be read. -/
inductive FileError where
  | notFound
  | permissionDenied
  | isDirectory
  | notADirectory
  | nameTooLong
  | notUtf8
  /-- Anything else, in the words of the system. -/
  | other (text : String)
deriving DecidableEq, Repr

/-- What is said of an unreadable file. -/
def FileError.message : FileError → String
  | .notFound => "No such file or directory (os error 2)"
  | .permissionDenied => "Permission denied (os error 13)"
  | .isDirectory => "Is a directory (os error 21)"
  | .notADirectory => "Not a directory (os error 20)"
  | .nameTooLong => "File name too long (os error 36)"
  | .notUtf8 => "stream did not contain valid UTF-8"
  | .other text => text

/-- What the program finds when it starts. -/
structure Surroundings where
  /-- The input, as it comes. -/
  input : ByteArray
  /-- The content of a file. -/
  contentOf : String → Except FileError String
  /-- The seed if none is given. -/
  entropy : UInt64

/-- What a run of the program comes to. -/
structure Outcome where
  exit : UInt8
  /-- The text on the output. -/
  output : String
  /-- The text on the error stream. -/
  notices : String
deriving DecidableEq, Repr

/-- The exit status of a run that is refused. -/
def refusedStatus : UInt8 := 1

/-- The exit status of a run that a fault has cut short. -/
def cutStatus : UInt8 := 101

/-- What a run comes to that has written this, with an exit status unless a
fault has cut it short. -/
def Outcome.ofTranscript (exit : UInt8) (t : Transcript) : Outcome :=
  ⟨if t.isCut then cutStatus else exit, t.output, t.notices⟩

/-! ## §2. Preparation -/

/-- The name and the version of the program. -/
def versionLine : String := "simpdiv 0.1.0"

/-- What the program says of itself. -/
def banner : List String :=
  ["Compute Nash equilibria using simplicial subdivision", "simpdiv version 0.1.0", ""]

/-- How the program is used. -/
def helpLines : List String := [
  "Compute Nash equilibria using simplicial subdivision.",
  "",
  "Usage: simpdiv [OPTIONS]",
  "",
  "Options:",
  "  -d <DECIMALS>           Show equilibria as floating point with DECIMALS digits",
  "  -g <MULT>               Granularity of grid refinement at each step [default: 2]",
  "  -r <DENOM>              Generate random starting points with denominator DENOM",
  "  -n <COUNT>              Number of starting points to generate",
  "  -s <FILE>               File containing starting points, one per line",
  "  -q                      Quiet mode (suppresses banner and progress)",
  "  -v                      Verbose mode (shows intermediate output)",
  "      --seed <SEED>       Seed for random starting points",
  "      --leash <LEASH>     Leash length of the pivot path [default: 32000]",
  "      --max-pivots <N>    Cap on label evaluations per refinement pass",
  "      --time-limit <SECS> Wall-clock limit per starting point, in seconds",
  "  -h, --help              Print help",
  "  -V, --version           Print version"]

/-- What is said when the arguments are refused. -/
def usageError : String := "usage error"

/-- Everything that is needed to solve. -/
structure Job where
  solver : Solver
  starts : List Profile
  format : WeightFormat
  verbose : Bool

/-- The settings that the options ask for. -/
def Options.settings (o : Options) : Settings :=
  { Settings.default with
    gridResize := o.gridResize
    leashLength := o.leash
    maxPivots := o.maxPivots
    timeLimit := o.timeLimit }

/-- How the options want weights to be written. -/
def Options.format (o : Options) : WeightFormat :=
  match o.decimals with
  | none => .exact
  | some digits => .decimal digits

/-- The warning for a line of a file that holds no starting point. -/
def skippedLine (file : String) (line : Nat) (e : ProfileError) : Record where
  severity := .warning
  origin := "simpdiv"
  message := file ++ ":" ++ numeral line ++ ": skipping starting point: " ++ e.message

/-- What comes of the preparation of a run. -/
inductive Prepared (α : Type) where
  /-- It goes on; this has been written. -/
  | ready (value : α) (written : Transcript)
  /-- It is over; this has been written. -/
  | refused (written : Transcript)

/-- The preparation of a run, unless there is a fault. -/
def Prepared.ofFallible {α : Type} : Except Fault (α × Transcript) → Prepared α
  | .ok (value, written) => .ready value written
  | .error f => .refused (.ofFault f)

/-- The starting points in a file, with a warning for every other line.  A line
that is a fault ends the run. -/
def startsOfFile (file content : String) (shape : Shape) : Prepared (List Profile) :=
  let (found, fault?) := Capacity.readLines shape content
  let warnings := Transcript.all <| found.map fun (line, read) =>
    match read with
    | .ok _ => .empty
    | .error e => .ofRecord (skippedLine file line e)
  match fault? with
  | some f => .refused (warnings.andThen (.ofFault f))
  | none => .ready (found.filterMap fun (_, read) => read.toOption) warnings

/-- The starting points that the options ask for. -/
def Options.starts (o : Options) (around : Surroundings) (g : Game) :
    Prepared (List Profile) :=
  match o.startFile, o.denominator with
  | some file, _ =>
    match around.contentOf file with
    | .ok content => startsOfFile file content g.shape
    | .error e => .refused (.ofNotice ("Error reading " ++ file ++ ": " ++ e.message))
  | none, some denominator =>
    let words := WordStream.ofSeed (o.seed.getD around.entropy)
    .ofFallible <| (Capacity.randomStarts g denominator (draw? words) (o.count.getD 1) 0).map
      fun (starts, _) => (starts, .empty)
  | none, none =>
    .ofFallible <| (pureStart g).map fun p => ([p], .empty)

/-- The job that the options ask for, if the input is a game and the options
are in order. -/
def Options.prepare (o : Options) (around : Surroundings) : Prepared Job :=
  let first : Transcript := if o.quiet then .empty else .all (banner.map .ofNotice)
  let refused (why : Transcript) : Prepared Job := .refused (first.andThen why)
  match String.fromUTF8? around.input with
  | none => refused (.ofNotice ("Error reading game: " ++ FileError.notUtf8.message))
  | some text =>
    match readGame Json.standard text with
    | .error (.fault f) => refused (.ofFault f)
    | .error e => refused (.ofNotice ("Error reading game: " ++ e.message))
    | .ok table =>
      let g := table.toGame
      match Solver.ofGame g o.settings with
      | .error e => refused (.ofNotice ("Invalid options: " ++ e.message))
      | .ok solver =>
        match o.starts around g with
        | .refused why => refused why
        | .ready starts warnings =>
          .ready ⟨solver, starts, o.format, o.verbose⟩ (first.andThen warnings)

/-! ## §3. Solving -/

namespace Job

/-- A profile on a line. -/
def lineOf (job : Job) (label : String) (p : Profile) : Transcript :=
  match Capacity.line p label job.format with
  | .ok line => .ofLine line
  | .error f => .ofFault f

/-- What is written before a starting point is solved from. -/
def beforeStart (job : Job) (start : Profile) : Transcript :=
  if job.verbose then job.lineOf "start" start else .empty

/-- What is written when a solve begins. -/
def atBegin (job : Job) (start : Profile) : Transcript :=
  if job.verbose then
    .ofRecord {
      severity := .info
      origin := "simpdiv::nash::solver"
      message := "solving " ++ numeral start.shape.length ++ " player game with shape "
        ++ start.shape.text ++ " from initial mesh "
        ++ String.ofList (rationalText (mkRat 1 start.denominatorLcm)) }
  else .empty

/-- What is written after a pass. -/
def afterPass (job : Job) (r : PassReport) : Transcript :=
  if job.verbose then job.lineOf (String.ofList (rationalText r.mesh)) r.profile else .empty

/-- What is written at the end of a solve. -/
def atAnswer (job : Job) (a : Answer) : Transcript :=
  let warning : Transcript := match a.warning? with
    | some message => .ofRecord ⟨.warning, "simpdiv::nash::solver", message⟩
    | none => .empty
  warning.andThen (job.lineOf "NE" a.profile)

/-- What is written when there is no answer. -/
def atFailure (start : Profile) : SolveError → Transcript
  | .start e =>
    .ofRecord ⟨.error, "simpdiv", "cannot solve from " ++ start.text ++ ": " ++ e.message⟩
  | .fault f => .ofFault f

/-- The solve from a starting point. -/
def solveFrom (job : Job) (clock : Clock) (start : Profile) : Transcript :=
  let solved : Transcript := match job.solver.solve start clock fun _ => true with
    | .ok (reports, a) =>
      (job.atBegin start).andThen
        ((Transcript.all (reports.map job.afterPass)).andThen (job.atAnswer a))
    | .error e => atFailure start e
  (job.beforeStart start).andThen solved

/-- The solves from all starting points. -/
def run (job : Job) (clock : Clock) : Transcript :=
  .all (job.starts.map (job.solveFrom clock))

end Job

/-- The options of a solve that the arguments ask for, or what the run comes to
at once. -/
def request (arguments : List String) : Except Outcome Options :=
  match readArguments? arguments with
  | none => .error (.ofTranscript refusedStatus (.ofNotice usageError))
  | some .help => .error (.ofTranscript 0 (.all (helpLines.map .ofLine)))
  | some .version => .error (.ofTranscript 0 (.ofLine versionLine))
  | some (.solve o) => .ok o

/-- A run of the program. -/
def run (arguments : List String) (around : Surroundings) (clock : Clock) : Outcome :=
  match request arguments with
  | .error outcome => outcome
  | .ok o =>
    match o.prepare around with
    | .refused written => .ofTranscript refusedStatus written
    | .ready job written => .ofTranscript 0 (written.andThen (job.run clock))

end SimplicialNash.Cli
