import InvariantSearch.CommandLine.Duration
import InvariantSearch.Oracle.Smt
import InvariantSearch.Search.Basic

/-!
# Settings

The settings of a run, which the command line gives. `Setting` lists the settings that have a name,
and `Settings.assign` and `Settings.enable` change one of them.
-/

namespace InvariantSearch

/-- When messages are colored. -/
inductive ColorChoice where
  | never
  /-- If the terminal seems to show colors. -/
  | auto
  | always
  deriving DecidableEq

/-- Which oracle decides conditions. -/
inductive OracleChoice where
  | solver (kind : SolverKind)
  | bounded
  deriving DecidableEq

/-- The settings of a run. -/
structure Settings where
  color : ColorChoice
  oracle : OracleChoice
  /-- Whether the queries to a solver are saved. -/
  saveQueries : Bool
  /-- The limit for each query. -/
  timeout : Duration
  /-- The seed of the solver. -/
  seed : Nat
  /-- The bound of the integers that the bounded oracle tries. -/
  window : Nat
  /-- The limit for each search. -/
  budget : Option Duration
  maxIterations : Option Nat
  maxSize : Option Nat
  /-- Whether all three conditions of a candidate are decided at once. -/
  parallel : Bool
  /-- Whether results are shown in JSON. -/
  json : Bool
  /-- Whether times are shown. -/
  time : Bool
  /-- The name of the problem file. -/
  file : String
  deriving DecidableEq

namespace Settings

/-- The settings of a run that changes none, for a problem file. -/
def default (file : String) : Settings where
  color := .auto
  oracle := .solver .z3
  saveQueries := false
  timeout := ⟨600, 0⟩
  seed := 0
  window := 32
  budget := none
  maxIterations := none
  maxSize := none
  parallel := false
  json := false
  time := false
  file := file

/-- The limits and options of a search. Where there is a limit on time, and it is measured how many
candidates are drawn until it is reached, this limits the candidates instead. -/
def searchConfig (s : Settings) (cutoff : Option Nat) : SearchConfig where
  maxIterations := Option.merge min s.maxIterations (s.budget.bind fun _ => cutoff)
  timeout := if cutoff.isSome then none else s.budget.map Duration.milliseconds
  maxSize := s.maxSize
  parallel := s.parallel

/-- How a solver is asked in a logic, when its command is known. -/
def smtConfig (s : Settings) (kind : SolverKind) (command : String) (logic : Logic) :
    SmtConfig where
  kind := kind
  command := command
  logic := logic
  timeout := some s.timeout.milliseconds
  seed := s.seed
  saveQueries := s.saveQueries

end Settings

/-- A setting with a name. -/
inductive Setting where
  | color
  | oracle
  | saveQueries
  | timeout
  | seed
  | window
  | budget
  | maxIterations
  | maxSize
  | parallel
  | json
  | time
  deriving DecidableEq

namespace Setting

/-- All settings. -/
def all : List Setting :=
  [.color, .oracle, .saveQueries, .timeout, .seed, .window, .budget, .maxIterations, .maxSize,
    .parallel, .json, .time]

/-- The name of a setting. -/
def name : Setting → String
  | .color => "color"
  | .oracle => "solver"
  | .saveQueries => "smt"
  | .timeout => "timeout"
  | .seed => "solver-seed"
  | .window => "window"
  | .budget => "budget-time"
  | .maxIterations => "max-iterations"
  | .maxSize => "max-size"
  | .parallel => "parallel"
  | .json => "json"
  | .time => "time"

/-- The setting of a name. -/
def ofName? (name : String) : Option Setting := all.find? (·.name = name)

/-- Whether the setting is given with a value. -/
def takesValue : Setting → Bool
  | .saveQueries | .parallel | .json | .time => false
  | _ => true

end Setting

/-! ## Reading values -/

/-- The number of digits, if there are digits only and at least one. -/
def digits? (cs : List Char) : Option Nat :=
  if !cs.isEmpty && cs.all Char.isDigit then
    some (cs.foldl (fun n c => 10 * n + (c.toNat - 48)) 0)
  else none

/-- A text without the plus sign in front of it, if there is one. -/
def dropPlus : List Char → List Char
  | '+' :: cs => cs
  | cs => cs

/-- The number that a text stands for, if it fits into 64 bits. -/
def count? (text : String) : Option Nat :=
  (digits? (dropPlus text.toList)).filter (· < UInt64.size)

/-- The bound that a text stands for, if it fits into 32 bits. Zero may have a minus sign. -/
def bound? (text : String) : Option Nat :=
  match text.toList with
  | '-' :: cs => (digits? cs).filter (· = 0)
  | cs => (digits? (dropPlus cs)).filter (· < UInt32.size)

/-- The choice of colors of a name. -/
def ColorChoice.ofName? : String → Option ColorChoice
  | "never" => some .never
  | "auto" => some .auto
  | "always" => some .always
  | _ => none

/-- The oracle of a name. -/
def OracleChoice.ofName? : String → Option OracleChoice
  | "z3" => some (.solver .z3)
  | "cvc5" => some (.solver .cvc5)
  | "bounded" => some .bounded
  | _ => none

namespace Settings

/-- Changes a setting to a value, if it can have that value. -/
def assign (s : Settings) (setting : Setting) (value : String) : Option Settings :=
  match setting with
  | .color => (ColorChoice.ofName? value).map fun color => { s with color }
  | .oracle => (OracleChoice.ofName? value).map fun oracle => { s with oracle }
  | .timeout => (Duration.parse? value).map fun timeout => { s with timeout }
  | .seed => (count? value).map fun seed => { s with seed }
  | .window => (bound? value).map fun window => { s with window }
  | .budget => (Duration.parse? value).map fun d => { s with budget := some d }
  | .maxIterations => (count? value).map fun n => { s with maxIterations := some n }
  | .maxSize => (count? value).map fun n => { s with maxSize := some n }
  | _ => none

/-- Switches on a setting that has no value. -/
def enable (s : Settings) : Setting → Settings
  | .saveQueries => { s with saveQueries := true }
  | .parallel => { s with parallel := true }
  | .json => { s with json := true }
  | .time => { s with time := true }
  | _ => s

end Settings

end InvariantSearch
