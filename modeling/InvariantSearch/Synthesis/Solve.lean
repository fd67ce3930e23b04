import InvariantSearch.Search.Basic
import InvariantSearch.Synthesis.Problem

/-!
# Solving a synthesis problem

A problem is solved by one search for the constrained predicate. If an invariant is found, every
other predicate gets the first term of its grammar. The only error is that there is no constraint;
every other problem with a declaration was found when it was made.
-/

namespace InvariantSearch

/-- How solving a problem ended. -/
inductive SynthOutcome where
  /-- Solutions were found. -/
  | hasSolution
  /-- Every candidate is ruled out. -/
  | noSolution
  /-- The oracle could not decide a condition, for this reason. -/
  | unknown (reason : String)
  /-- A limit was reached. -/
  | timeout
  deriving DecidableEq

namespace SynthOutcome

/-- The outcome as it is shown. -/
def text : SynthOutcome → String
  | .hasSolution => "has solution"
  | .noSolution => "no solution"
  | .unknown _ => "unknown"
  | .timeout => "timeout"

/-- The outcome's name in reports. -/
def key : SynthOutcome → String
  | .hasSolution => "has-solution"
  | .noSolution => "no-solution"
  | .unknown _ => "unknown"
  | .timeout => "timeout"

/-- Why a condition could not be decided. -/
def reason? : SynthOutcome → Option String
  | .unknown reason => some reason
  | _ => none

end SynthOutcome

/-- How solving a problem ended, and what the search has counted. -/
structure SynthResult where
  outcome : SynthOutcome
  stats : SearchStats
  deriving DecidableEq

/-- The first term of a grammar, or the formula `true` if there is none, if it can be found within
the given number of ticks. -/
def Grammar.firstTerm (ticks : Nat) (g : Grammar) : Option Term :=
  ((Enumerator.new g none).next ticks).map fun (t, _) => t.getD (.bool true)

/-- The definition of a predicate by a formula. -/
def SynthFun.defineAs (f : SynthFun) (body : Term) : FunDef := ⟨f.name, f.params, .bool, body⟩

namespace SynthProblem

variable {σ : Type}

/-- The definitions of all functions to synthesize, once the constrained one is found. -/
def complete (ticks : Nat) (p : SynthProblem) (c : InvConstraint) (invariant : Term) :
    Option (List FunDef) :=
  let constants := c.system.constants
  p.synthFuns.mapM fun f =>
    if f.name = c.inv.name then some (f.defineAs invariant)
    else ((f.grammarWith p.logic constants).firstTerm ticks).map f.defineAs

/-- What a search that has ended says about the problem. -/
def conclude (ticks : Nat) (p : SynthProblem) (c : InvConstraint) :
    SearchState → Option (SynthOutcome × Option (List FunDef))
  | .searching => none
  | .found invariant => (p.complete ticks c invariant).map fun defs => (.hasSolution, some defs)
  | .exhausted => some (.noSolution, none)
  | .unknown kind reason => some (.unknown (SearchState.reasonText kind reason), none)
  | .timeout => some (.timeout, none)

/-- Solves a problem with a constraint, if that takes fewer than the given number of steps, and each
step fewer ticks than that. -/
def solveConstraint (oracle : Oracle σ) (steps : Nat) (config : SearchConfig) (p : SynthProblem)
    (c : InvConstraint) (q : σ) : Option (SynthResult × SynthProblem × σ) := do
  let system := c.system
  let g := c.inv.grammarWith p.logic system.constants
  let (s, q) ← (Search.new system g config).run oracle steps q
  let (outcome, solutions) ← p.conclude steps c s.state
  return (⟨outcome, s.stats⟩, { p with solutions }, q)

/-- Solves a problem, within limits as in `solveConstraint`. -/
def solve (oracle : Oracle σ) (steps : Nat) (config : SearchConfig) (p : SynthProblem) (q : σ) :
    Except SynthesisError (Option (SynthResult × SynthProblem × σ)) :=
  match p.constraint with
  | none => .error .noConstraint
  | some c => .ok (p.solveConstraint oracle steps config c q)

end SynthProblem

end InvariantSearch
