import InvariantSearch.Term.Eval
import InvariantSearch.Term.Subst

/-!
# Transition systems and their conditions

A transition system has a precondition, a transition relation and a postcondition over a list of
state variables; the transition relation also speaks of their primed copies. A candidate is an
inductive invariant if three conditions are valid: it holds initially, it is kept by every
transition, and it implies the postcondition (`TransitionSystem.conditions`).
-/

namespace InvariantSearch

/-- A transition system over the state variables `vars`. -/
structure TransitionSystem where
  vars : List Binder
  pre : Term
  trans : Term
  post : Term
  deriving DecidableEq

namespace TransitionSystem

/-- The transition system of three definitions, with their parameters renamed to the state
variables. The transition relation takes the state variables followed by their primed copies. -/
def ofDefs (vars : List Binder) (pre trans post : FunDef) : TransitionSystem :=
  let current : List Term := vars.map fun b => .id b.name
  let next : List Term := vars.map fun b => .id (primeName b.name)
  ⟨vars, pre.unfold current, trans.unfold (current ++ next), post.unfold current⟩

/-- The primed copies of the state variables. -/
def primedVars (ts : TransitionSystem) : List Binder := ts.vars.map Binder.prime

/-- The integer literals of the three formulas, in ascending order. -/
def constants (ts : TransitionSystem) : List Int64 :=
  ascending (ts.pre.literals ++ ts.trans.literals ++ ts.post.literals)

end TransitionSystem

/-- The three conditions on an inductive invariant. -/
inductive ConditionKind where
  /-- The precondition implies the invariant. -/
  | init
  /-- Transitions keep the invariant. -/
  | step
  /-- The invariant implies the postcondition. -/
  | safety
  deriving DecidableEq

/-- The kind's name. -/
def ConditionKind.name : ConditionKind → String
  | .init => "init"
  | .step => "step"
  | .safety => "safety"

/-- A formula that is to be valid for all values of its variables. -/
structure Condition where
  kind : ConditionKind
  vars : List Binder
  formula : Term
  deriving DecidableEq

namespace TransitionSystem

/-- The condition of a kind on a candidate. -/
def condition (ts : TransitionSystem) (kind : ConditionKind) (candidate : Term) : Condition :=
  match kind with
  | .init => ⟨kind, ts.vars, ts.pre.implies candidate⟩
  | .step =>
    ⟨kind, ts.vars ++ ts.primedVars,
      (Term.conj [candidate, ts.trans]).implies (candidate.prime ts.vars)⟩
  | .safety => ⟨kind, ts.vars, candidate.implies ts.post⟩

/-- The three conditions on a candidate, in the order in which they are checked. -/
def conditions (ts : TransitionSystem) (candidate : Term) : List Condition :=
  [.init, .step, .safety].map (ts.condition · candidate)

end TransitionSystem

end InvariantSearch
