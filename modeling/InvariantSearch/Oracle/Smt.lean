import InvariantSearch.Oracle.Basic
import InvariantSearch.Solver.Session
import InvariantSearch.Term.Printer

/-!
# Asking a solver

The solver oracle starts a solver for every condition, declares the condition's variables and
asserts its negation. If that cannot hold, the condition is valid; if it can, the values of the
variables are read back as a counterexample. Whatever else happens, the condition stays undecided.
-/

namespace InvariantSearch

/-- Which solver to ask, and how. -/
structure SmtConfig where
  kind : SolverKind
  command : String
  logic : Logic
  /-- The milliseconds for each condition. -/
  timeout : Option Nat
  /-- The seed of the solver's random choices; 0 leaves the solver's own. -/
  seed : Nat
  /-- Whether the transcripts of decided conditions are saved. -/
  saveQueries : Bool
  deriving DecidableEq

/-- How the solver is started. -/
def SmtConfig.launch (conf : SmtConfig) : Launch :=
  let l := (Launch.new conf.kind conf.command).setTimeout conf.kind conf.timeout
  let l := if conf.seed = 0 then l else l.setSeed conf.kind conf.seed
  { l with logic := conf.logic.smtName }

/-- What remains of earlier conditions: how many solvers were started, and the texts that were
saved. -/
structure SmtState where
  launches : Nat
  saved : List String
  deriving DecidableEq

/-- Reads a value of a sort. -/
def Value.ofSexp? (ty : Ty) (e : Sexp) : Option Value :=
  match ty with
  | .bool => e.bool?.map .bool
  | .int => e.int?.map .int

namespace SmtOracle

/-- Starts a solver once, to see that it answers. -/
def start (programs : Programs) (conf : SmtConfig) : Except SolverError SmtState := do
  let s ← Session.start programs 0 conf.launch false
  let _ ← (Session.checkSat.run s).1
  return ⟨1, []⟩

/-- The values of variables, in order. -/
def readValues : List Binder → List (Sexp × Sexp) → Assignment → Except SolverError Assignment
  | b :: bs, (_, e) :: values, a =>
    match Value.ofSexp? b.ty e with
    | some v => readValues bs values (a.insert b.name v)
    | none => .error (.badReply ("value " ++ e.render ++ " for " ++ b.name))
  | _, _, a => .ok a

/-- Reads the model as a counterexample. It needs a value for every variable. -/
def readModel (vars : List Binder) (values : List (Sexp × Sexp)) :
    Except SolverError Assignment := do
  let a ← readValues vars values .empty
  if a.size = vars.length then return a else throw (.badReply "missing values in model")

/-- The commands that state the negation of a condition. -/
def statement (c : Condition) : List Sexp :=
  (c.vars.map fun b => .app "declare-const" [.symbol b.name, .symbol b.ty.name]) ++
  [.app "assert" [.app "not" [c.formula.toSexp]]]

/-- Asks whether the statement can hold, within the given time. With no time at all the session is
cancelled right away, and with any limit a solver that is stuck is cancelled in the end. -/
def checkWithin (timeout : Option Nat) : SessionM Satisfiability := do
  modify fun s => { s with cancellations := [timeout = some 0], watched := timeout.isSome }
  let answer ← Session.checkSat
  modify fun s => { s with cancellations := [], watched := false }
  return answer

/-- What the answer says about a condition whose negation is stated. -/
def readDecision (c : Condition) : Satisfiability → SessionM Decision
  | .unsat => return .valid
  | .unknown reason => return .unknown reason
  | .sat => do
    let values ← Session.getValues (c.vars.map fun b => .symbol b.name)
    return .invalid (← readModel c.vars values)

/-- Decides a condition in a session that has just begun. -/
def decideIn (timeout : Option Nat) (c : Condition) : SessionM Decision := do
  modify (Session.comment (c.kind.name ++ " condition"))
  (statement c).forM fun e => Session.send e
  let decision ← readDecision c (← checkWithin timeout)
  let _ ← Session.save
  return decision

/-- The decision that a failure amounts to. -/
def ofFailure : SolverError → Decision
  | .killed => .unknown "timeout"
  | e => .unknown ("solver failed: " ++ e.message)

end SmtOracle

/-- The oracle that asks a solver. -/
def Oracle.smt (programs : Programs) (conf : SmtConfig) : Oracle SmtState := fun c q =>
  match Session.start programs q.launches conf.launch conf.saveQueries with
  | .error e => (SmtOracle.ofFailure e, q)
  | .ok s =>
    let (result, s) := (SmtOracle.decideIn conf.timeout c).run { s with saved := q.saved }
    let decision :=
      match result with
      | .ok d => d
      | .error e => SmtOracle.ofFailure e
    (decision, ⟨q.launches + 1, s.saved⟩)

end InvariantSearch
