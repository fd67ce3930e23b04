import InvariantSearch.Solver.Reply

/-!
# Scripted solvers

A scripted solver answers from a prepared list of replies. It reads its input line by line: a
question takes the next reply, a request for the marker is always granted, `(exit)` ends the solver,
and any other line is accepted in silence.
-/

namespace InvariantSearch

/-- A prepared reply. -/
inductive ScriptedReply where
  /-- A text on lines of its own; the empty text is not written at all. -/
  | text (s : String)
  /-- A text after which the solver closes its output and reads on without answering. -/
  | closing (s : String)
  /-- No reply: the solver stops reading and answering. -/
  | silence
  deriving DecidableEq

/-- What a solver is up to. -/
inductive Activity where
  | answering
  /-- It neither reads nor writes any more, but its output is open. -/
  | stuck
  /-- It has closed its output. -/
  | closed
  /-- It has ended. -/
  | gone
  deriving DecidableEq

/-- A solver that answers from a list. -/
structure ScriptedSolver where
  replies : List ScriptedReply
  /-- Whether it writes the marker in double quotes. -/
  quotesMarker : Bool
  activity : Activity
  deriving DecidableEq

namespace ScriptedSolver

/-- A solver that has just been started. -/
def new (replies : List ScriptedReply) (quotesMarker : Bool) : ScriptedSolver :=
  ⟨replies, quotesMarker, .answering⟩

/-- The solver after its end. -/
def kill (s : ScriptedSolver) : ScriptedSolver := { s with activity := .gone }

/-- Whether a line begins with the given text. -/
def beginsWith (start line : String) : Bool := start.toList.isPrefixOf line.toList

/-- Whether a line asks for the next reply. -/
def isQuestion (line : String) : Bool :=
  ["(check-sat", "(get-value", "(get-info"].any (beginsWith · line)

/-- The reply to a question after the last prepared one. -/
def exhausted : String := "(error \"script exhausted\")"

/-- Answers a question. -/
def answer (s : ScriptedSolver) : ScriptedSolver × String :=
  match s.replies with
  | [] => (s, exhausted ++ "\n")
  | .text t :: rest => ({ s with replies := rest }, if t.isEmpty then "" else t ++ "\n")
  | .closing t :: rest => ({ s with replies := rest, activity := .closed }, t)
  | .silence :: rest => ({ s with replies := rest, activity := .stuck }, "")

/-- Takes one line of input, and gives what the solver writes. -/
def feed (s : ScriptedSolver) (line : String) : ScriptedSolver × String :=
  match s.activity with
  | .answering =>
    if isQuestion line then s.answer
    else if beginsWith "(echo" line then
      (s, (if s.quotesMarker then Reply.quotedMarker else Reply.marker) ++ "\n")
    else if line = "(exit)" then (s.kill, "")
    else (s, "")
  | _ => (s, "")

/-- Takes lines of input in order. -/
def feedAll (s : ScriptedSolver) : List String → ScriptedSolver × String
  | [] => (s, "")
  | line :: lines =>
    let (s, written) := s.feed line
    let (s, more) := s.feedAll lines
    (s, written ++ more)

end ScriptedSolver

/-- The solvers that can be started: for a command, the solver of each launch, counted from 0. -/
abbrev Programs := String → Option (Nat → ScriptedSolver)

/-- No solver can be started. -/
def Programs.none : Programs := fun _ => Option.none

/-- The solvers of a list, one for each launch; later launches are like the last one. -/
def ScriptedSolver.ofRuns (runs : List (List ScriptedReply)) (quotesMarker : Bool) (launch : Nat) :
    ScriptedSolver :=
  .new ((runs[launch]?).getD (runs.getLast?.getD [])) quotesMarker

end InvariantSearch
