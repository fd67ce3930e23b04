import InvariantSearch.Problem.Command
import InvariantSearch.Synthesis.Request

/-!
# Executing a problem file

A problem file is read as a whole before anything is done. Then its options are taken, which have to
come first, and the other commands are followed in order (`Progress.follow`). Each `check-synth`
solves the problem as it is stated so far and gives a `Verdict`. The first command that is refused
ends the execution. The oracle is started at the first `check-synth` and kept from then on.
-/

namespace InvariantSearch

/-- Why an execution ends early. -/
inductive ExecutionError where
  /-- The text is not a problem. -/
  | notProblem (e : ProblemError)
  /-- The value of an option should be a Boolean. -/
  | notBoolean (value : String)
  /-- An option after the first command that is none. -/
  | lateOption
  | refused (e : SynthesisError)
  /-- The oracle cannot be started, for this reason. -/
  | noOracle (reason : String)
  deriving DecidableEq

/-- The wording of the error. -/
def ExecutionError.message : ExecutionError → String
  | .notProblem e => e.message
  | .notBoolean value => "expected true or false, found " ++ value
  | .lateOption => "options must be set before any other command"
  | .refused e => e.message
  | .noOracle reason => reason

/-- An error with the part of the text to blame. -/
structure Failure where
  error : ExecutionError
  span : Span
  deriving DecidableEq

/-! ## Options -/

/-- Whether a command sets an option or the logic. -/
def Command.isOption : Command → Bool
  | .setLogic _ | .setOption .. => true
  | _ => false

/-- Reads the value of an option. -/
def readFlag (value : String) : Except ExecutionError Bool :=
  match value with
  | "true" => .ok true
  | "false" => .ok false
  | _ => .error (.notBoolean value)

/-- Takes options in order, where the last value of each counts. The place of the last option that
is not ignored goes with them. -/
def ProblemOptions.take (o : ProblemOptions) (place : Span) :
    List (Span × Command) → Except Failure (ProblemOptions × Span)
  | [] => .ok (o, place)
  | (span, c) :: rest =>
    match c with
    | .setLogic logic => take { o with logic } place rest
    | .setOption "sygus" value => do
      let synthesis ← (readFlag value).mapError (⟨·, span⟩)
      take { o with synthesis } span rest
    | .setOption "incremental" value => do
      let incremental ← (readFlag value).mapError (⟨·, span⟩)
      take { o with incremental } span rest
    | _ => take o place rest

/-- The problem without declarations that has the given options. If there is none, the last option
is to blame. -/
def SynthProblem.ofOptions (options : List (Span × Command)) : Except Failure SynthProblem := do
  let (o, place) ← ProblemOptions.default.take ⟨0, 0⟩ options
  (SynthProblem.new o).mapError fun e => ⟨.refused e, place⟩

/-! ## Commands -/

/-- The result of a `check-synth`, with the definitions that were found. -/
structure Verdict where
  result : SynthResult
  solutions : List FunDef
  deriving DecidableEq

/-- Whether a solution was found. -/
def Verdict.isSolved (v : Verdict) : Bool := v.result.outcome = .hasSolution

/-- How far an execution has come. -/
structure Progress (σ : Type) where
  /-- The problem as it is stated so far. -/
  problem : SynthProblem
  /-- The state of the oracle, once it is started. -/
  oracle : Option σ
  /-- The results so far, in order. -/
  verdicts : List Verdict

/-- What the execution of a problem file needs: an oracle for each logic, its state once it is
started, and the limits and options of the search of each check, counted from 0. -/
structure Executor (σ : Type) where
  oracle : Logic → Oracle σ
  start : Logic → Except String σ
  config : (check : Nat) → SearchConfig

namespace Progress

variable {σ : Type}

/-- Nothing is done. -/
def new (problem : SynthProblem) : Progress σ := ⟨problem, none, []⟩

/-- Makes a request to the problem. -/
def request {α : Type} (s : Progress σ) (r : RequestM α) :
    Except ExecutionError (Option (α × SynthProblem)) :=
  match r.runOn s.problem with
  | none => .ok none
  | some (.ok a, problem) => .ok (some (a, problem))
  | some (.error e, _) => .error (.refused e)

/-- Solves the problem as it is stated so far, if that takes fewer than `steps` steps. -/
def check (x : Executor σ) (steps : Nat) (s : Progress σ) :
    Except ExecutionError (Option (Progress σ)) := do
  let q ←
    match s.oracle with
    | some q => pure q
    | none => (x.start s.problem.logic).mapError .noOracle
  let config := x.config s.verdicts.length
  let solved ← s.request (.solve (x.oracle s.problem.logic) steps config q)
  return solved.map fun ((result, q), problem) =>
    ⟨problem, some q, s.verdicts ++ [⟨result, problem.solution.toOption.getD []⟩]⟩

/-- States more of the problem. -/
def declare (s : Progress σ) (r : RequestM Unit) : Except ExecutionError (Option (Progress σ)) := do
  return (← s.request r).map fun (_, problem) => { s with problem }

/-- Follows one command that is not an option. -/
def step (x : Executor σ) (steps : Nat) (s : Progress σ) :
    Command → Except ExecutionError (Option (Progress σ))
  | .setLogic _ | .setOption .. => .error .lateOption
  | .declareVar _ => .ok (some s)
  | .defineFun d => s.declare (.define d)
  | .synthFun name params ret grammar => s.declare (.declare name params ret grammar)
  | .invConstraint inv pre next post => s.declare (.constrain inv pre next post)
  | .checkSynth => s.check x steps

/-- Follows commands in order, up to the first that is refused, if each search takes fewer than the
given number of steps. -/
def follow (x : Executor σ) (steps : Nat) (s : Progress σ) :
    List (Span × Command) → Option (Progress σ × Option Failure)
  | [] => some (s, none)
  | (span, c) :: rest =>
    match s.step x steps c with
    | .error e => some (s, some ⟨e, span⟩)
    | .ok none => none
    | .ok (some s) => s.follow x steps rest

end Progress

/-! ## Executions -/

/-- What came of an execution. -/
structure Execution where
  /-- The results of the checks, in order. -/
  verdicts : List Verdict
  /-- Why the execution ended early, if it did. -/
  failure : Option Failure
  deriving DecidableEq

namespace Execution

/-- An execution that ended before anything was checked. -/
def failed (failure : Failure) : Execution := ⟨[], some failure⟩

/-- Whether all commands were followed and all checks found a solution. -/
def succeeded (e : Execution) : Bool := e.failure.isNone && e.verdicts.all Verdict.isSolved

end Execution

namespace Executor

variable {σ : Type}

/-- Executes the commands of a problem file, if each search takes fewer than the given number of
steps. The state of the oracle at the end, if it was started, goes with the execution. -/
def executeCommands (x : Executor σ) (steps : Nat) (commands : List (Span × Command)) :
    Option (Execution × Option σ) :=
  match SynthProblem.ofOptions (commands.takeWhile (·.2.isOption)) with
  | .error failure => some (.failed failure, none)
  | .ok p =>
    ((Progress.new p).follow x steps (commands.dropWhile (·.2.isOption))).map
      fun (s, failure) => (⟨s.verdicts, failure⟩, s.oracle)

/-- Executes the text of a problem file, within a limit as in `executeCommands`. -/
def execute (x : Executor σ) (steps : Nat) (text : String) : Option (Execution × Option σ) :=
  match parseProblem text with
  | .error e => some (.failed ⟨.notProblem e, e.span⟩, none)
  | .ok commands => x.executeCommands steps commands

end Executor

end InvariantSearch
