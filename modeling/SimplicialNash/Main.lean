/-
  SimplicialNash.Main
  ───────────────────
  The command line program.

  This module holds what touches the world: arguments, input, files, the time
  and output.  What the program makes of them is said in
  `SimplicialNash.Cli.Job`.  A pass is driven move by move here, because every
  move looks at the time, and a line is printed as soon as it is known.
-/
import SimplicialNash.Cli.Job

namespace SimplicialNash.Cli

/-! ## §1. Files -/

/-- The number of a system's error, which may come with a minus sign. -/
def errorNumber (code : UInt32) : UInt32 := min code (0 - code)

/-- Why a file cannot be read, from what the system says. -/
def FileError.ofSystem (e : IO.Error) : FileError :=
  match e with
  | .noFileOrDirectory .. => .notFound
  | .permissionDenied .. => .permissionDenied
  | .inappropriateType _ code _ =>
    if errorNumber code = 20 then .notADirectory else .isDirectory
  | .invalidArgument _ code _ =>
    if errorNumber code = 36 then .nameTooLong else .other (toString e)
  | _ => .other (toString e)

/-- The content of a file. -/
def contentOf (file : String) : IO (Except FileError String) := do
  try
    match String.fromUTF8? (← IO.FS.readBinFile file) with
    | some content => return .ok content
    | none => return .error .notUtf8
  catch e => return .error (.ofSystem e)

/-- What the program finds when it starts with these options. -/
def Options.surroundings (o : Options) : IO Surroundings := do
  let input ← (← IO.getStdin).readBinToEnd
  let content ← match o.startFile with
    | some file => contentOf file
    | none => pure (.error .notFound)
  let entropy ← IO.getRandomBytes 8
  return ⟨input, fun _ => content, entropy.toUInt64LE!⟩

/-! ## §2. Solving under the clock -/

/-- Writes a part of a run. -/
def Transcript.write (t : Transcript) : IO Unit := do
  IO.print t.output
  (← IO.getStdout).flush
  IO.eprint t.notices

/-- Writes a part of a run and goes on if no fault has cut it short. -/
def Transcript.writeThen (t : Transcript) (rest : IO Bool) : IO Bool := do
  t.write
  if t.isCut then return true else rest

/-- A pass from one of its moves on; the time counts from a moment in
nanoseconds. -/
partial def runPassSince (began : Nat) {shape : Shape} (g : Game) (limits : PassLimits)
    (pass : Pass shape) : IO (Except Fault PassOutcome) := do
  match pass.step g limits ((← IO.monoNanosNow) - began) with
  | .error fault => return .error fault
  | .ok (.inl outcome) => return .ok outcome
  | .ok (.inr next) => runPassSince began g limits next

/-- The passes from a point of progress on, and whether a fault has cut them
short. -/
partial def refineSince (began : Nat) (job : Job) (start : Profile) (progress : Progress) :
    IO Bool := do
  let s := job.solver
  let mesh := s.nextMesh progress
  let pass := Pass.start progress.incumbent.profile.weights mesh
    s.settings.leashLength.toNat progress.incumbent
  match ← runPassSince began s.game s.limits pass with
  | .error fault => (Job.atFailure start (.fault fault)).writeThen (return false)
  | .ok outcome =>
    let progress := Solver.advance progress mesh outcome
    let r := Solver.report progress outcome
    (job.afterPass r).writeThen do
      match s.stop? r true with
      | none => refineSince began job start progress
      | some reason => (job.atAnswer (Solver.answer progress reason)).writeThen (return false)

/-- The solve from a starting point, and whether a fault has cut it short. -/
def Job.solveNow (job : Job) (start : Profile) : IO Bool := do
  let began ← IO.monoNanosNow
  (job.beforeStart start).writeThen do
    match job.solver.begin start with
    | .error e => (Job.atFailure start e).writeThen (return false)
    | .ok progress =>
      (job.atBegin start).writeThen (refineSince began job start progress)

/-- The solves from all starting points, and whether a fault has cut them
short. -/
def Job.solveAll (job : Job) : List Profile → IO Bool
  | [] => return false
  | start :: rest => do
    if ← job.solveNow start then return true else job.solveAll rest

/-- Writes what a run comes to, and gives its exit status. -/
def Outcome.finish (o : Outcome) : IO UInt32 := do
  IO.print o.output
  IO.eprint o.notices
  return o.exit.toUInt32

end SimplicialNash.Cli

open SimplicialNash.Cli in
/-- The program. -/
def main (arguments : List String) : IO UInt32 := do
  match request arguments with
  | .error outcome => outcome.finish
  | .ok o =>
    match o.prepare (← o.surroundings) with
    | .refused written => (Outcome.ofTranscript refusedStatus written).finish
    | .ready job written =>
      written.write
      if ← job.solveAll job.starts then return cutStatus.toUInt32 else return 0
