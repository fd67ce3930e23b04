import InvariantSearch.Synthesis.Execute
import InvariantSearch.Term.Printer
import InvariantSearch.Text.Json

/-!
# Reports

How the results of an execution are shown: as text, where a solution goes to the standard output and
a reason to the standard error, or as JSON. A report on times can follow.
-/

namespace InvariantSearch

/-- The counters of a search in JSON. -/
def SearchStats.toJson (s : SearchStats) : Json :=
  .object [("candidates", .number s.candidates), ("rejected_by_store", .number s.rejected),
    ("oracle_queries", .number s.queries), ("counterexamples", .number s.counterexamples)]

namespace Verdict

/-- A result in JSON. -/
def toJson (v : Verdict) : Json :=
  let reason := v.result.outcome.reason?.toList.map fun reason => ("reason", Json.text reason)
  .object ([("status", .text v.result.outcome.key)] ++ reason ++
    [("stats", v.result.stats.toJson), ("solutions", .list (v.solutions.map (.text ·.render)))])

/-- A result on the standard output. -/
def output (json : Bool) (v : Verdict) : String :=
  if json then v.toJson.render ++ "\n"
  else if v.isSolved then String.join (v.solutions.map (·.render ++ "\n"))
  else v.result.outcome.text ++ "\n"

/-- What goes to the standard error with a result. -/
def remark (json : Bool) (v : Verdict) : String :=
  match v.result.outcome.reason? with
  | some reason => if json then "" else reason ++ "\n"
  | none => ""

end Verdict

/-! ## Times -/

/-- What a clock shows of a run. -/
structure RunTimes where
  /-- The milliseconds in total. -/
  total : Nat
  /-- The milliseconds in decisions of each kind. -/
  valid : Nat
  invalid : Nat
  unknown : Nat
  /-- For each check how many candidates are drawn until its time is used up, where that is
  measured. -/
  cutoffs : List (Option Nat)
  deriving DecidableEq

namespace RunTimes

/-- No time at all. -/
def zero : RunTimes := ⟨0, 0, 0, 0, []⟩

/-- How many candidates are drawn until the time of a check is used up, where that is measured. -/
def cutoff (t : RunTimes) (check : Nat) : Option Nat := t.cutoffs[check]?.join

/-- Milliseconds as seconds with one decimal. -/
def seconds (milliseconds : Nat) : String :=
  let tenths := (milliseconds + 50) / 100
  toString (tenths / 10) ++ "." ++ toString (tenths % 10) ++ "s"

/-- A label that takes up a fixed number of columns, and a time. -/
def line (indent width : Nat) (label : String) (milliseconds : Nat) : String :=
  let spaces (n : Nat) : String := String.ofList (List.replicate n ' ')
  spaces indent ++ label ++ spaces (width - label.length) ++ ": " ++ seconds milliseconds

/-- A number of calls, with at least four columns for the number. -/
def calls (n : Nat) : String :=
  String.ofList (List.replicate (4 - (toString n).length) ' ') ++ toString n ++ " calls"

/-- The report on the times of a run with the given decisions. A kind of decision is left out if
there was none. -/
def report (t : RunTimes) (n : DecisionCounts) : String :=
  let inOracle := t.valid + t.invalid + t.unknown
  let kind (label : String) (milliseconds count : Nat) : String :=
    if count = 0 then "" else line 4 18 label milliseconds ++ " " ++ calls count ++ " \n"
  line 0 22 "total" t.total ++ "\n" ++
    line 2 20 "non-oracle" (t.total - inOracle) ++ "\n" ++
    line 2 20 "oracle total" inOracle ++ " " ++ calls n.total ++ "\n" ++
    kind "oracle (valid)" t.valid n.valid ++ kind "oracle (invalid)" t.invalid n.invalid ++
    kind "oracle (unknown)" t.unknown n.unknown

end RunTimes

end InvariantSearch
