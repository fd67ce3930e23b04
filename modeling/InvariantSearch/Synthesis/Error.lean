import InvariantSearch.Grammar.Builder

/-!
# Errors in a synthesis problem

Why an option, a declaration or a request is refused. All of these are found before any candidate is
drawn.
-/

namespace InvariantSearch

/-- Why a step in stating or solving a problem is refused. -/
inductive SynthesisError where
  /-- Problems are synthesis problems, and the option that says so is off. -/
  | notSynthesis
  /-- Solving a problem again after adding to it is not supported. -/
  | incremental
  | redeclared (name : String)
  | unknownFunction (name : String)
  /-- The function stands where a defined function is needed, but is to be synthesized. -/
  | notDefined (name : String)
  /-- The function is defined, and so it cannot be synthesized. -/
  | notSynthesized (name : String)
  | secondConstraint
  | noConstraint
  | notPredicate (name : String) (found : Ty)
  | parameterSorts (name : String) (expected found : List Ty)
  | illSorted (name : String) (err : SortError)
  | outsideLogic (name : String) (err : LogicError)
  | badGrammar (name : String) (err : GrammarError)
  /-- The next-state copy of a parameter has the name of another parameter. -/
  | primedClash (name : String)
  | noSolution
  deriving DecidableEq

/-- Names of sorts, with spaces between them. -/
def Ty.listNames (tys : List Ty) : String := String.intercalate " " (tys.map Ty.name)

/-- The wording of the error. -/
def SynthesisError.message : SynthesisError → String
  | .notSynthesis => "the sygus option must be enabled"
  | .incremental => "incremental solving is not supported"
  | .redeclared f => f ++ " is already declared"
  | .unknownFunction f => "unknown function " ++ f
  | .notDefined f => "unknown function " ++ f ++ " (functions to synthesize cannot be used here)"
  | .notSynthesized f => f ++ " is not a function to synthesize"
  | .secondConstraint => "an invariant constraint was already added"
  | .noConstraint => "no invariant constraint was added"
  | .notPredicate f found => f ++ " must return Bool, but returns " ++ found.name
  | .parameterSorts f expected found =>
    f ++ " should take (" ++ Ty.listNames expected ++ "), but takes (" ++ Ty.listNames found ++ ")"
  | .illSorted f err => "in " ++ f ++ ": " ++ err.message
  | .outsideLogic f err => "in " ++ f ++ ": " ++ err.message
  | .badGrammar f err => "grammar for " ++ f ++ ": " ++ err.message
  | .primedClash x =>
    "the next-state copy " ++ x ++ " of an invariant parameter clashes with another name"
  | .noSolution => "no solution is available"

end InvariantSearch
