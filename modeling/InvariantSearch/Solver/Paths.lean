import InvariantSearch.Text.Uppercase

/-!
# Paths

How the command of a solver is found, and where queries are saved. A solver's command can be set by
an environment variable named for the solver. The queries of a problem file go into a directory
beside the file that carries the file's name.

A path is taken as text. Its components are what stands between the slashes; empty components and
the component `.` do not count, except that a `.` at the beginning is kept.
-/

namespace InvariantSearch

/-- The command of a solver: the value of its environment variable, or else its name. -/
def solverCommand (environment : String → Option String) (name : String) : String :=
  (environment (toUpperCase name ++ "_BIN")).getD name

namespace Path

/-- The text before and after the last occurrence of `c`, if there is one. -/
def splitLast (c : Char) (cs : List Char) : Option (List Char × List Char) :=
  match cs.reverse.dropWhile (· ≠ c) with
  | [] => none
  | _ :: before => some (before.reverse, (cs.reverse.takeWhile (· ≠ c)).reverse)

/-- The text up to the last slash, which is left out, and the text after it; without a slash, all is
after it. -/
def splitComponent (cs : List Char) : List Char × List Char := (splitLast '/' cs).getD ([], cs)

/-- What a path begins with that belongs to no component: a slash, or a `.` that is kept. -/
def root : List Char → List Char
  | '/' :: _ => ['/']
  | ['.'] => ['.']
  | '.' :: '/' :: _ => ['.']
  | _ => []

/-- The text without the components at its end that do not count; the number bounds how many are
left out. -/
def dropTrivial : Nat → List Char → List Char
  | 0, cs => cs
  | n + 1, cs =>
    let (before, last) := splitComponent cs
    if !cs.isEmpty && (last = [] || last = ['.']) then dropTrivial n before else cs

/-- The last component of a path and the path before it, if that component names a file. -/
def fileName? (path : List Char) : Option (List Char × List Char) :=
  let start := root path
  let body := dropTrivial path.length (path.drop start.length)
  let (before, last) := splitComponent body
  if last = [] || last = ['.', '.'] then none
  else some (start ++ dropTrivial path.length before, last)

/-- A file's name without the part from its last dot on; a dot at the beginning does not count. -/
def stem (name : List Char) : List Char :=
  match splitLast '.' name with
  | some (c :: cs, _) => c :: cs
  | _ => name

/-- The path of a name inside a directory. -/
def join (directory name : List Char) : List Char :=
  if directory.isEmpty || directory.getLast? = some '/' then directory ++ name
  else directory ++ '/' :: name

end Path

/-- The directory for the queries of a problem file. A path that names no file gets one for queries
of no particular file. -/
def queryDirectory (path : String) : String :=
  let suffix := ".smt2.d".toList
  String.ofList <|
    match Path.fileName? path.toList with
    | some (directory, name) => Path.join directory (Path.stem name ++ suffix)
    | none => Path.join path.toList ("queries".toList ++ suffix)

end InvariantSearch
