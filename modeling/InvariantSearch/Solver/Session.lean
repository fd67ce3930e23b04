import InvariantSearch.Solver.Launch
import InvariantSearch.Solver.Scripted
import InvariantSearch.Solver.Transcript

/-!
# Sessions with a solver

A session sends commands to a running solver and reads its replies. Another thread may cancel it at
any time. A cancellation kills the solver at once if a call is going on that may take long, and else
only stops the session; in both cases every later command is dropped in silence and every later
question fails (`SolverError.killed`).

The session looks at its status before every command and at the beginning and the end of every call.
`Session.cancellations` says at which of the coming looks a cancellation has just arrived, so that a
run of a session covers one interleaving with the other threads.
-/

namespace InvariantSearch

/-- Why the system refused to start a solver or to write to it. -/
inductive SystemError where
  | notFound
  | brokenPipe
  deriving DecidableEq

/-- The wording of the error. -/
def SystemError.message : SystemError → String
  | .notFound => "No such file or directory (os error 2)"
  | .brokenPipe => "Broken pipe (os error 32)"

/-- Why a question has no answer. -/
inductive SolverError where
  | system (e : SystemError)
  /-- The solver reported an error, or closed its output; the text is what it said. -/
  | failed (text : String)
  /-- The reply makes no sense. -/
  | badReply (text : String)
  /-- The session was cancelled. -/
  | killed
  /-- The solver never answers, and nobody will cancel the session. -/
  | unresponsive
  deriving DecidableEq

/-- The wording of the error. -/
def SolverError.message : SolverError → String
  | .system e => "some I/O went wrong: " ++ e.message
  | .failed text => "solver returned an error:\n" ++ text
  | .badReply text => "could not parse solver response:\n" ++ text
  | .killed => "solver was killed"
  | .unresponsive => "solver does not respond"

/-- The status of a session. -/
inductive SessionStatus where
  /-- Nothing was cancelled; `inCall` says that a call is going on that may take long. -/
  | running (inCall : Bool)
  /-- Cancelled between calls, while the solver still runs. -/
  | stopping
  /-- Cancelled in a call, so that the solver was killed. -/
  | killed
  /-- Cancelled, with the solver gone. -/
  | terminated
  deriving DecidableEq

/-- A session with a solver. -/
structure Session where
  status : SessionStatus
  solver : ScriptedSolver
  /-- What the solver has written and nobody has read. -/
  unread : List Char
  /-- What the solver was told, if that is kept. -/
  transcript : Option Transcript
  /-- The texts of the transcripts saved so far, each once. -/
  saved : List String
  /-- Whether a cancellation arrives just before each of the coming looks at the status. None
  arrives after the end of the list. -/
  cancellations : List Bool
  /-- Whether a call that does not return is cancelled in the end. -/
  watched : Bool

/-- The answer to the question whether the assertions can all hold. -/
inductive Satisfiability where
  | sat
  | unsat
  | unknown (reason : String)
  deriving DecidableEq

/-- An action in a session that may fail; what it did before it failed stays done. -/
abbrev SessionM := ExceptT SolverError (StateM Session)

namespace Session

/-! ## Cancelling -/

/-- Cancels the session. -/
def cancel (s : Session) : Session :=
  match s.status with
  | .running true => { s with status := .killed, solver := s.solver.kill }
  | .running false => { s with status := .stopping }
  | _ => s

/-- Whether the session was cancelled. -/
def isCancelled (s : Session) : Bool :=
  match s.status with
  | .running _ => false
  | _ => true

/-- Lets the next cancellation arrive, if it is due. -/
def arrive (s : Session) : Session :=
  match s.cancellations with
  | [] => s
  | due :: rest =>
    let s := { s with cancellations := rest }
    if due then s.cancel else s

/-- Ends a session that was cancelled. -/
def settle (s : Session) : Session :=
  match s.status with
  | .running _ => s
  | _ => { s with status := .terminated, solver := s.solver.kill }

/-- A look at the status: whether the session may go on. -/
def mayGoOn : StateM Session Bool := do
  modify fun s => s.arrive.settle
  return !(← get).isCancelled

/-- A look at the status that fails if the session was cancelled. -/
def requireRunning : SessionM Unit := do
  if ← mayGoOn then return else throw .killed

/-- Begins a call that may take long. -/
def startCall : SessionM Unit := do
  requireRunning
  modify fun s => { s with status := .running true }

/-- Ends a call that may take long. -/
def endCall : SessionM Unit := do
  requireRunning
  modify fun s => { s with status := .running false }

/-! ## Commands -/

/-- The lines of a text. -/
def lines (text : String) : List String := (text.toList.splitOn '\n').map String.ofList

/-- Gives a text to the solver, line by line. -/
def feed (text : String) (s : Session) : Session :=
  let (solver, written) := s.solver.feedAll (lines text)
  { s with solver, unread := s.unread ++ written.toList }

/-- Adds to the transcript, if there is one. -/
def record (entries : List Sexp) (s : Session) : Session :=
  { s with transcript := s.transcript.map (· ++ entries) }

/-- Sends a command that has no reply. It is dropped if the session was cancelled. -/
def send (e : Sexp) : StateM Session Unit := do
  if ← mayGoOn then modify fun s => (s.feed e.render).record [e]

/-- Adds a comment to the transcript, after an empty line. -/
def comment (text : String) (s : Session) : Session :=
  s.record [.comment "", .comment text]

/-- Saves a text, unless it was saved before. -/
def keep (text : String) (s : Session) : Session :=
  if text ∈ s.saved then s else { s with saved := s.saved ++ [text] }

/-- Saves the transcript and gives its text, if there is one. -/
def save : StateM Session (Option String) := do
  match (← get).transcript with
  | none => return none
  | some t =>
    modify (keep t.render)
    return some t.render

/-! ## Questions -/

/-- The command to write the marker. -/
def markerRequest : String := "(echo \"" ++ Reply.marker ++ "\")"

/-- Fails because the solver will write no more; what it wrote last may say why. -/
def outputEnded {α : Type} : SessionM α := do
  let text := (← get).unread
  modify fun s => { s with unread := [] }
  requireRunning
  throw (.failed (Reply.errorText (String.ofList text)))

/-- Reads the reply to what was sent last. A solver that is stuck is waited for, until the session
is cancelled. -/
def readReply : SessionM String := do
  modify arrive
  if (← get).solver.activity = .gone then
    requireRunning
    throw (.system .brokenPipe)
  modify (feed markerRequest)
  let s ← get
  match Reply.split s.unread with
  | some (reply, rest) =>
    set { s with unread := rest }
    return String.ofList reply
  | none =>
    if s.solver.activity = .stuck then
      if s.watched then set s.cancel else throw .unresponsive
    outputEnded

/-- Sends a question whose reply is one s-expression. -/
def ask (e : Sexp) : SessionM Sexp := do
  send e
  let reply ← readReply
  match Sexp.parse reply with
  | .ok e => return e
  | .error _ => throw (.badReply reply)

/-- The two items of a list of two. -/
def pair? : Sexp → Option (Sexp × Sexp)
  | .list [e, value] => some (e, value)
  | _ => none

/-- Asks the solver for something it knows about itself. -/
def getInfo (key : String) : SessionM Sexp := do
  let reply ← ask (.app "get-info" [.symbol key])
  match pair? reply with
  | some (e, value) => if e = .symbol key then return value else throw (.badReply reply.render)
  | none => throw (.badReply reply.render)

/-- What a reply says about satisfiability; for an undecided question the solver is asked why. -/
def readSatisfiability (reply : String) : SessionM Satisfiability :=
  match reply with
  | "sat" => return .sat
  | "unsat" => return .unsat
  | "unknown" => return .unknown (← getInfo ":reason-unknown").render
  | _ => do
    requireRunning
    throw (.failed (Reply.errorText reply))

/-- Asks whether the assertions can all hold. The transcript of an undecided question is saved. -/
def checkSat : SessionM Satisfiability := do
  send (.app "check-sat" [])
  startCall
  let answer ← readSatisfiability (← readReply)
  endCall
  if let .unknown _ := answer then
    let _ ← save
  return answer

/-- Asks for the values of terms in the model that was found, as pairs of a term and its value. -/
def getValues (terms : List Sexp) : SessionM (List (Sexp × Sexp)) := do
  if terms.isEmpty then return []
  startCall
  let reply ← ask (.app "get-value" [.list terms])
  endCall
  match reply.items?.bind (·.mapM pair?) with
  | some values => return values
  | none => throw (.badReply reply.render)

/-! ## The beginning and the end of a session -/

/-- What the solver is told first. -/
def preamble (l : Launch) : List Sexp :=
  (l.options.map fun (name, value) =>
    .app "set-option" [.symbol (":" ++ name), .symbol value]) ++
  [.app "set-logic" [.symbol l.logic]]

/-- Starts a solver, as its given launch, and tells it options and logic. Models are always asked
for. A transcript begins with the command line. -/
def start (programs : Programs) (launch : Nat) (l : Launch) (keepTranscript : Bool) :
    Except SolverError Session :=
  match programs l.command with
  | none => .error (.system .notFound)
  | some solver =>
    let s : Session :=
      { status := .running false
        solver := solver launch
        unread := []
        transcript := if keepTranscript then some [.comment l.commandLine] else none
        saved := []
        cancellations := []
        watched := false }
    .ok (((preamble (l.addOption "produce-models" "true")).forM send).run s).2

/-- Ends a session. The solver is told to exit, whatever the status is, and then it is gone. -/
def close : StateM Session Unit := do
  modify (feed "(exit)")
  modify fun s => { s with solver := s.solver.kill }
  modify fun s => { s with status := .terminated }

end Session

end InvariantSearch
