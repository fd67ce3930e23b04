import InvariantSearch.CommandLine.Settings

/-!
# Command-line arguments

The arguments of the command line are read from left to right. A setting with a value is given as
`--name=value` or as two arguments `--name value`, any other setting as `--name`, and each at most
once. One argument names the problem file. After `--` every argument is a file name. A request for
help counts as soon as it is reached, and so does any error.
-/

namespace InvariantSearch

/-- Why arguments make no sense. -/
inductive ArgumentError where
  | unexpected (arg : String)
  | repeated (setting : Setting)
  | missingValue (setting : Setting)
  | uselessValue (name value : String)
  | badValue (setting : Setting) (value : String)
  | missingFile
  deriving DecidableEq

/-- The name of the value of a setting: the setting's name in capitals. -/
def Setting.valueName (setting : Setting) : String :=
  String.ofList (setting.name.toList.map fun c => if c = '-' then '_' else c.toUpper)

/-- A setting as it is given. -/
def Setting.usage (setting : Setting) : String :=
  "--" ++ setting.name ++ if setting.takesValue then " <" ++ setting.valueName ++ ">" else ""

/-- The wording of the error. -/
def ArgumentError.message : ArgumentError → String
  | .unexpected arg => "unexpected argument '" ++ arg ++ "' found"
  | .repeated setting => "the argument '" ++ setting.usage ++ "' cannot be used multiple times"
  | .missingValue setting =>
    "a value is required for '" ++ setting.usage ++ "' but none was supplied"
  | .uselessValue name value =>
    "unexpected value '" ++ value ++ "' for '--" ++ name ++ "' found; no more were expected"
  | .badValue setting value => "invalid value '" ++ value ++ "' for '" ++ setting.usage ++ "'"
  | .missingFile => "the following required arguments were not provided:\n  <FILE>"

/-- What the arguments ask for. -/
inductive Request where
  /-- A short or a long description of the arguments. -/
  | help (long : Bool)
  | run (settings : Settings)
  deriving DecidableEq

/-- What an argument is by its form. -/
inductive ArgumentForm where
  /-- The argument `--`. -/
  | separator
  /-- An argument that begins with `--`, where a value may follow after `=`. -/
  | long (name : String) (value : Option String)
  /-- An argument that begins with `-` and goes on with these letters. -/
  | short (letters : List Char)
  | plain
  deriving DecidableEq

/-- The form of an argument. -/
def ArgumentForm.of (arg : String) : ArgumentForm :=
  match arg.toList with
  | ['-', '-'] => .separator
  | '-' :: '-' :: cs =>
    .long (String.ofList (cs.takeWhile (· ≠ '=')))
      (match cs.dropWhile (· ≠ '=') with
        | _ :: value => some (String.ofList value)
        | [] => none)
  | '-' :: c :: cs => .short (c :: cs)
  | _ => .plain

/-- What was read of the arguments. -/
structure Arguments where
  /-- The settings that were given. -/
  given : List Setting
  settings : Settings
  file : Option String

namespace Arguments

/-- No arguments. -/
def empty : Arguments := ⟨[], .default "", none⟩

/-- Reads a file name. -/
def takeFile (a : Arguments) (arg : String) : Except ArgumentError Arguments :=
  if a.file.isSome then .error (.unexpected arg) else .ok { a with file := some arg }

/-- Reads a setting with a value. -/
def takeValue (a : Arguments) (setting : Setting) (value : String) :
    Except ArgumentError Arguments :=
  if a.given.contains setting then .error (.repeated setting)
  else
    match a.settings.assign setting value with
    | some settings => .ok { a with given := setting :: a.given, settings }
    | none => .error (.badValue setting value)

/-- Reads a setting without a value. -/
def takeFlag (a : Arguments) (setting : Setting) : Except ArgumentError Arguments :=
  if a.given.contains setting then .error (.repeated setting)
  else .ok { a with given := setting :: a.given, settings := a.settings.enable setting }

/-- The request at the end of the arguments. -/
def finish (a : Arguments) : Except ArgumentError Request :=
  match a.file with
  | some file => .ok (.run { a.settings with file })
  | none => .error .missingFile

/-- Reads the rest of the arguments, where `onlyFiles` says whether `--` was among those before. -/
def read (onlyFiles : Bool) (a : Arguments) : List String → Except ArgumentError Request
  | [] => a.finish
  | arg :: args =>
    if onlyFiles then do (← a.takeFile arg).read true args
    else
      match ArgumentForm.of arg with
      | .separator => a.read true args
      | .plain => do (← a.takeFile arg).read false args
      | .short letters =>
        if letters.head? = some 'h' then .ok (.help false) else .error (.unexpected arg)
      | .long "help" none => .ok (.help true)
      | .long "help" (some value) => .error (.uselessValue "help" value)
      | .long name value =>
        match Setting.ofName? name with
        | none => .error (.unexpected arg)
        | some setting =>
          match setting.takesValue, value with
          | true, some value => do (← a.takeValue setting value).read false args
          | false, none => do (← a.takeFlag setting).read false args
          | false, some value => .error (.uselessValue name value)
          | true, none =>
            match args with
            | [] => .error (.missingValue setting)
            | value :: args =>
              if ArgumentForm.of value = .plain then do
                (← a.takeValue setting value).read false args
              else .error (.missingValue setting)

end Arguments

/-- What the arguments of the command line ask for. -/
def parseArguments (args : List String) : Except ArgumentError Request :=
  Arguments.empty.read false args

end InvariantSearch
