import InvariantSearch.Transition

/-!
# Stored counterexamples

Every counterexample that an oracle gave is kept, and a later candidate is first checked against all
of them: the candidate's condition of the same kind has to hold on the stored assignment. A
condition that has no value there says nothing about the candidate.
-/

namespace InvariantSearch

/-- An assignment that made the condition of a kind false for an earlier candidate. -/
structure Counterexample where
  kind : ConditionKind
  assignment : Assignment
  deriving DecidableEq

namespace Counterexample

/-- The written form of a counterexample. -/
def render (cex : Counterexample) : String := cex.kind.name ++ ": " ++ cex.assignment.render

/-- Whether the counterexample makes the candidate's condition false. -/
def refutes (ts : TransitionSystem) (cex : Counterexample) (candidate : Term) : Bool :=
  match (ts.condition cex.kind candidate).formula.evalBool cex.assignment.get? with
  | .ok holds => !holds
  | .error _ => false

end Counterexample

/-- The counterexamples of a search, in the order in which they were found. -/
abbrev Store := List Counterexample

namespace Store

/-- Adds a counterexample. -/
def record (s : Store) (cex : Counterexample) : Store := s ++ [cex]

/-- The first counterexample that refutes the candidate. -/
def firstViolated (s : Store) (ts : TransitionSystem) (candidate : Term) :
    Option Counterexample :=
  s.find? (·.refutes ts candidate)

/-- Whether no counterexample refutes the candidate. -/
def admits (s : Store) (ts : TransitionSystem) (candidate : Term) : Bool :=
  (s.firstViolated ts candidate).isNone

end Store

end InvariantSearch
