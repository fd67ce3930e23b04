import InvariantSearch.CommandLine.Arguments

/-!
# Help

Descriptions of the command-line arguments. The short one has each setting's values and default on
the line of the setting's description, and the long one has them on lines of their own.
-/

namespace InvariantSearch

namespace Setting

/-- What a setting is for. -/
def help : Setting → String
  | .color => "Control color output. Auto disables colors with TERM=dumb or NO_COLOR=true"
  | .oracle => "Oracle to decide verification conditions with"
  | .saveQueries => "Save SMT queries in a directory alongside the input file"
  | .timeout => "Timeout for each oracle call (for example 30s or 2m)"
  | .seed => "SMT solver random seed"
  | .window => "Integers range over [-window, window] for the bounded oracle"
  | .budget => "Give up after this much time in total"
  | .maxIterations => "Give up after drawing this many candidates"
  | .maxSize => "Only consider candidates up to this size"
  | .parallel => "Check the three conditions of each candidate in parallel"
  | .json => "Print the result as JSON"
  | .time => "Print timing statistics"

/-- The value that a setting has unless it is given. -/
def default? : Setting → Option String
  | .color => some "auto"
  | .oracle => some "z3"
  | .timeout => some "10m"
  | .seed => some "0"
  | .window => some "32"
  | _ => none

/-- The values of a setting that has only a few, each with its description if it has one. -/
def choices : Setting → List (String × Option String)
  | .color => [("never", none), ("auto", none), ("always", none)]
  | .oracle =>
    [("z3", none), ("cvc5", none),
      ("bounded", some "Exhaustive evaluation over a window of integers")]
  | _ => []

/-- The default and the values of a setting, each in brackets. -/
def remarks (s : Setting) : List String :=
  let default := s.default?.toList.map fun v => "[default: " ++ v ++ "]"
  let choices := s.choices.map Prod.fst
  if choices.isEmpty then default
  else default ++ ["[possible values: " ++ String.intercalate ", " choices ++ "]"]

/-- The short description of a setting. -/
def shortHelp (s : Setting) : String :=
  "      " ++ s.usage ++ "\n          " ++ String.intercalate " " (s.help :: s.remarks) ++ "\n"

/-- The values of a setting, one a line. -/
def choiceList (s : Setting) : String :=
  let line (choice : String × Option String) : String :=
    "\n          - " ++ choice.1 ++
      match choice.2 with
      | some text => ": " ++ text
      | none => ""
  "\n\n          Possible values:" ++ String.join (s.choices.map line)

/-- The long description of a setting. Values are listed if one of them has a description. -/
def longHelp (s : Setting) : String :=
  let listed := s.choices.any (·.2.isSome)
  let remarks := if listed then s.remarks.take 1 else s.remarks
  let remarks := remarks.map ("\n          " ++ ·)
  "      " ++ s.usage ++ "\n          " ++ s.help ++
    (if remarks.isEmpty then "" else "\n          " ++ String.join remarks) ++
    (if listed then s.choiceList else "") ++ "\n\n"

end Setting

/-- The description of the command line. -/
def helpText (long : Bool) : String :=
  let file := "File name for a SyGuS .sl file\n"
  "Counterexample-guided synthesis of inductive loop invariants\n\n" ++
  "Usage: invsyn [OPTIONS] <FILE>\n\n" ++
  "Arguments:\n" ++ (if long then "  <FILE>\n          " ++ file else "  <FILE>  " ++ file) ++
  "\nOptions:\n" ++
  String.join (Setting.all.map (if long then Setting.longHelp else Setting.shortHelp)) ++
  "  -h, --help\n          " ++
  if long then "Print help (see a summary with '-h')\n"
  else "Print help (see more with '--help')\n"

end InvariantSearch
