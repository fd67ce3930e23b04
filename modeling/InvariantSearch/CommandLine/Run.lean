import InvariantSearch.CommandLine.Help
import InvariantSearch.CommandLine.Report
import InvariantSearch.Diagnostic
import InvariantSearch.Oracle.Bounded
import InvariantSearch.Solver.Paths

/-!
# Runs of the program

A run takes the arguments of the command line and the problem file, and gives an exit code and what
is written. The exit code is 0 if the whole file was executed and every check found a solution, 1 if
not, and 2 if the arguments make no sense.
-/

namespace InvariantSearch

/-- Why a file cannot be read. -/
inductive ReadError where
  | notFound
  /-- It is not UTF-8. -/
  | notText
  /-- Any other error, in the system's words. -/
  | other (message : String)
  deriving DecidableEq

/-- The wording of the error. -/
def ReadError.message : ReadError → String
  | .notFound => SystemError.notFound.message
  | .notText => "stream did not contain valid UTF-8"
  | .other message => message

/-- The text that bytes stand for. -/
def decodeText (bytes : ByteArray) : Except ReadError String :=
  match String.fromUTF8? bytes with
  | some text => .ok text
  | none => .error .notText

/-- What a run depends on besides its arguments and the problem file. -/
structure Environment where
  /-- The values of environment variables. -/
  lookup : String → Option String
  /-- The solvers that can be started. -/
  programs : Programs

/-- What a run does. -/
structure RunResult where
  exitCode : UInt8
  stdout : String
  stderr : String
  /-- The texts of the saved queries. -/
  queries : List String
  deriving DecidableEq

/-- An execution with what the oracle has kept, whatever oracle it was. -/
structure RunSummary where
  execution : Execution
  decisions : DecisionCounts
  queries : List String
  deriving DecidableEq

/-- The summary of an execution with an oracle that counts its decisions, where `saved` gives the
texts that it has saved. -/
def RunSummary.of {σ : Type} (saved : σ → List String)
    (r : Execution × Option (σ × DecisionCounts)) : RunSummary where
  execution := r.1
  decisions := (r.2.map Prod.snd).getD .zero
  queries := (r.2.map fun q => saved q.1).getD []

namespace Settings

/-- The colors of messages. Unless colors are chosen, they are used for a terminal that is known and
not dumb, if the environment does not object. -/
def palette (s : Settings) (env : Environment) : Palette :=
  match s.color with
  | .never => .plain
  | .always => .ansi
  | .auto =>
    match env.lookup "TERM" with
    | none => .plain
    | some terminal =>
      if terminal = "dumb" || (env.lookup "NO_COLOR").isSome then .plain else .ansi

/-- The execution of problems with the bounded oracle. -/
def boundedExecutor (s : Settings) (times : RunTimes) : Executor (Unit × DecisionCounts) where
  oracle _ := (Oracle.bounded s.window).counted
  start _ := .ok ((), .zero)
  config check := s.searchConfig (times.cutoff check)

/-- The execution of problems with a solver. -/
def solverExecutor (s : Settings) (env : Environment) (times : RunTimes) (kind : SolverKind) :
    Executor (SmtState × DecisionCounts) :=
  let conf := s.smtConfig kind (solverCommand env.lookup kind.name)
  { oracle logic := (Oracle.smt env.programs (conf logic)).counted
    start logic :=
      match SmtOracle.start env.programs (conf logic) with
      | .ok q => .ok (q, .zero)
      | .error e => .error ("could not start " ++ kind.name ++ ": " ++ e.message)
    config check := s.searchConfig (times.cutoff check) }

/-- Executes the text of a problem file, if each search takes fewer than `steps` steps. -/
def execute (s : Settings) (env : Environment) (times : RunTimes) (steps : Nat) (text : String) :
    Option RunSummary :=
  match s.oracle with
  | .bounded => ((s.boundedExecutor times).execute steps text).map (.of fun _ => [])
  | .solver kind =>
    ((s.solverExecutor env times kind).execute steps text).map (.of SmtState.saved)

/-- What is written about the execution of a text, and the exit code. -/
def present (s : Settings) (env : Environment) (times : RunTimes) (text : String)
    (r : RunSummary) : RunResult where
  exitCode := if r.execution.succeeded then 0 else 1
  stdout :=
    String.join (r.execution.verdicts.map (Verdict.output s.json)) ++
      if s.time && r.execution.failure.isNone then times.report r.decisions else ""
  stderr :=
    String.join (r.execution.verdicts.map (Verdict.remark s.json)) ++
      match r.execution.failure with
      | some f => Diagnostic.render (s.palette env) s.file text ⟨f.error.message, f.span⟩
      | none => ""
  queries := r.queries

end Settings

namespace RunResult

/-- The result of a run whose file cannot be read. -/
def unreadable (file : String) (e : ReadError) : RunResult :=
  ⟨1, "", "could not read " ++ file ++ ": " ++ e.message ++ "\n", []⟩

/-- The result of a run whose arguments make no sense. -/
def badArguments (e : ArgumentError) : RunResult :=
  ⟨2, "", "error: " ++ e.message ++ "\n\nFor more information, try '--help'.\n", []⟩

/-- The result of a request for help. -/
def help (long : Bool) : RunResult := ⟨0, helpText long, "", []⟩

end RunResult

/-- The run of the program with the given arguments, if each search takes fewer than the given
number of steps. `files` gives the texts of files. -/
def runCommandLine (env : Environment) (files : String → Except ReadError String)
    (times : RunTimes) (steps : Nat) (args : List String) : Option RunResult :=
  match parseArguments args with
  | .error e => some (.badArguments e)
  | .ok (.help long) => some (.help long)
  | .ok (.run s) =>
    match files s.file with
    | .error e => some (.unreadable s.file e)
    | .ok text => (s.execute env times steps text).map (s.present env times text)

end InvariantSearch
