import InvariantSearch.CommandLine.Run

/-!
# The program

The command line on top of the pure definitions: it reads the problem file and the environment, and
writes what `Settings.present` gives. It starts no programs, so only the bounded oracle can decide
conditions here.
-/

namespace InvariantSearch

/-- The error of a failed attempt to read a file. -/
def ReadError.ofSystem : IO.Error → ReadError
  | .noFileOrDirectory .. => .notFound
  | e => .other (toString e)

/-- Reads a text file. -/
def readTextFile (file : String) : IO (Except ReadError String) := do
  try
    return decodeText (← IO.FS.readBinFile file)
  catch e =>
    return .error (.ofSystem e)

/-- The environment variables that a run looks at. -/
def readEnvironment : IO Environment := do
  let names := ["TERM", "NO_COLOR"] ++
    [SolverKind.z3, .cvc5].map fun kind => toUpperCase kind.name ++ "_BIN"
  let values ← names.mapM fun name => return (name, ← IO.getEnv name)
  return ⟨fun name => (values.lookup name).bind id, .none⟩

/-- More steps than any search can take. -/
def stepLimit : Nat := 1000000000000000000

/-- Executes the text of a problem file. A time budget is turned into a limit on candidates, which
starts at the given one and is doubled until the execution ends within it or the time is up. -/
partial def executeText (s : Settings) (env : Environment) (text : String) (started limit : Nat) :
    IO RunSummary := do
  let limited : Settings :=
    match s.budget, s.maxIterations with
    | none, _ => s
    | some _, none => { s with maxIterations := some limit }
    | some _, some n => { s with maxIterations := some (min n limit) }
  let some r ← IO.lazyPure fun _ => limited.execute env .zero stepLimit text
    | throw (.userError "too many steps")
  let elapsed := (← IO.monoMsNow) - started
  let ended := s.budget.all (·.milliseconds ≤ elapsed) || limited.maxIterations = s.maxIterations
  if ended || r.execution.verdicts.all (·.result.outcome ≠ .timeout) then return r
  executeText s env text started (2 * limit)

/-- Runs the program with the given arguments. -/
def runRequest (args : List String) : IO RunResult := do
  match parseArguments args with
  | .error e => return .badArguments e
  | .ok (.help long) => return .help long
  | .ok (.run s) =>
    match ← readTextFile s.file with
    | .error e => return .unreadable s.file e
    | .ok text =>
      let env ← readEnvironment
      let started ← IO.monoMsNow
      let r ← executeText s env text started 64
      let total := (← IO.monoMsNow) - started
      return s.present env { RunTimes.zero with total } text r

end InvariantSearch

/-- Runs the program. -/
def main (args : List String) : IO UInt32 := do
  let r ← InvariantSearch.runRequest args
  (← IO.getStdout).putStr r.stdout
  (← IO.getStderr).putStr r.stderr
  return r.exitCode.toUInt32
