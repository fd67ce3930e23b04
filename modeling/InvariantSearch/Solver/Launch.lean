import InvariantSearch.Logic

/-!
# Launching a solver

A `Launch` says how a solver is started: the command and its arguments, and the options and the
logic that it is told first. An option may be set several times, and the last setting counts, so a
launch only ever adds to the settings it has.
-/

namespace InvariantSearch

/-- A solver whose command line and options are known. -/
inductive SolverKind where
  | z3
  | cvc5
  deriving DecidableEq

/-- The solver's name. -/
def SolverKind.name : SolverKind → String
  | .z3 => "z3"
  | .cvc5 => "cvc5"

/-- How a solver is started, and what it is told first. -/
structure Launch where
  command : String
  args : List String
  options : List (String × String)
  logic : String
  deriving DecidableEq

namespace Launch

/-- Adds an argument. -/
def addArg (l : Launch) (arg : String) : Launch := { l with args := l.args ++ [arg] }

/-- Sets an option. -/
def addOption (l : Launch) (name value : String) : Launch :=
  { l with options := l.options ++ [(name, value)] }

/-- Sets the logic. -/
def setLogic (l : Launch) (logic : String) : Launch := { l with logic }

/-- Limits the milliseconds for each query. Without a limit the solver's own default is set: the
largest 32-bit number for one solver, 0 for the other. -/
def setTimeout (kind : SolverKind) (timeout : Option Nat) (l : Launch) : Launch :=
  match kind with
  | .z3 => l.addOption "timeout" (toString (timeout.getD 4294967295))
  | .cvc5 => l.addOption "tlimit-per" (toString (timeout.getD 0))

/-- Sets the seed of all random choices. -/
def setSeed (kind : SolverKind) (seed : Nat) (l : Launch) : Launch :=
  match kind with
  | .z3 =>
    (l.addOption "smt.random_seed" (toString seed)).addOption "sat.random_seed" (toString seed)
  | .cvc5 => l.addOption "seed" (toString seed)

/-- The launch of a solver under the given command, in the logic of everything. -/
def new (kind : SolverKind) (command : String) : Launch :=
  match kind with
  | .z3 =>
    setTimeout .z3 none ⟨command, ["-in", "-smt2"], [("model.completion", "true")], "ALL"⟩
  | .cvc5 =>
    ⟨command, ["-q", "--lang", "smt2"],
      [("interactive", "false"), ("incremental", "true"), ("seed", "1")], "ALL"⟩

/-- The command line as it is shown; an argument with a space stands in double quotes. -/
def commandLine (l : Launch) : String :=
  let shown (arg : String) : String :=
    if arg.toList.contains ' ' then "\"" ++ arg ++ "\"" else arg
  l.command ++ " " ++ String.intercalate " " (l.args.map shown)

end Launch

end InvariantSearch
