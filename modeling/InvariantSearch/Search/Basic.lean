import InvariantSearch.Enumeration.Enumerator
import InvariantSearch.Oracle.Basic
import InvariantSearch.Search.Store

/-!
# Searching for an invariant

A search draws candidates from an enumeration, one in each step. A candidate that a stored
counterexample refutes is dropped without asking the oracle. For any other candidate the oracle is
asked about the three conditions, and every counterexample it gives is stored. The candidate is the
answer if all three conditions are valid.

Every state but `searching` is final: `Search.step` leaves it as it is.
-/

namespace InvariantSearch

/-- The limits and options of a search. -/
structure SearchConfig where
  /-- The most candidates to draw. -/
  maxIterations : Option Nat
  /-- The milliseconds after which to give up. -/
  timeout : Option Nat
  /-- The largest size of a candidate. -/
  maxSize : Option Nat
  /-- Whether all three conditions are decided at once, and not only up to the first that is not
  valid. -/
  parallel : Bool
  deriving DecidableEq

/-- How far a search has come. -/
inductive SearchState where
  | searching
  /-- The candidate is an inductive invariant. -/
  | found (candidate : Term)
  /-- Every candidate is ruled out. -/
  | exhausted
  /-- The oracle could not decide a condition. -/
  | unknown (kind : ConditionKind) (reason : String)
  /-- A limit was reached. -/
  | timeout
  deriving DecidableEq

/-- What a search has counted. -/
structure SearchStats where
  /-- Candidates drawn. -/
  candidates : Nat
  /-- Candidates that a stored counterexample refuted. -/
  rejected : Nat
  /-- Conditions that the oracle was asked about. -/
  queries : Nat
  /-- Counterexamples stored. -/
  counterexamples : Nat
  deriving DecidableEq

namespace SearchStats

/-- Nothing counted. -/
def zero : SearchStats := ⟨0, 0, 0, 0⟩

/-- The written form of the counters. -/
def render (s : SearchStats) : String :=
  toString s.candidates ++ " candidates, " ++ toString s.rejected ++
    " rejected by counterexamples, " ++ toString s.queries ++ " oracle queries, " ++
    toString s.counterexamples ++ " counterexamples"

end SearchStats

/-- A search over a transition system and a grammar. -/
structure Search (g : Grammar) where
  system : TransitionSystem
  config : SearchConfig
  enumerator : Enumerator g
  store : Store
  state : SearchState
  stats : SearchStats
  /-- The milliseconds since the search began, as its caller measures them. -/
  elapsed : Nat

/-- The reason for an undecided condition, with its kind. -/
def SearchState.reasonText (kind : ConditionKind) (reason : String) : String :=
  kind.name ++ " condition: " ++ reason

/-- The answers of an oracle to conditions in order, ending with the first that is not "valid". -/
def Oracle.decideUntil {σ : Type} (oracle : Oracle σ) :
    List Condition → StateM σ (List (ConditionKind × Decision))
  | [] => return []
  | c :: cs => do
    match ← oracle c with
    | .valid => return (c.kind, .valid) :: (← oracle.decideUntil cs)
    | d => return [(c.kind, d)]

/-- The answers of an oracle to conditions in order. -/
def Oracle.decideAll {σ : Type} (oracle : Oracle σ) :
    List Condition → StateM σ (List (ConditionKind × Decision))
  | [] => return []
  | c :: cs => do
    let d ← oracle c
    return (c.kind, d) :: (← oracle.decideAll cs)

namespace Search

variable {g : Grammar} {σ : Type}

/-- The beginning of a search. -/
def new (system : TransitionSystem) (g : Grammar) (config : SearchConfig) : Search g :=
  { system, config
    enumerator := .new g config.maxSize
    store := []
    state := .searching
    stats := .zero
    elapsed := 0 }

/-- Whether a limit on candidates or on time is reached. -/
def outOfBudget (s : Search g) : Bool :=
  s.config.maxIterations.any (· ≤ s.stats.candidates) || s.config.timeout.any (· ≤ s.elapsed)

/-- Asks the oracle about a candidate. -/
def check (oracle : Oracle σ) (s : Search g) (candidate : Term) :
    StateM σ (List (ConditionKind × Decision)) :=
  let conditions := s.system.conditions candidate
  if s.config.parallel then oracle.decideAll conditions else oracle.decideUntil conditions

/-- The first condition that was not decided. -/
def firstUnknown (decisions : List (ConditionKind × Decision)) :
    Option (ConditionKind × String) :=
  decisions.findSome? fun (kind, d) =>
    match d with
    | .unknown reason => some (kind, reason)
    | _ => none

/-- The counterexamples among decisions. -/
def counterexamples (decisions : List (ConditionKind × Decision)) : List Counterexample :=
  decisions.filterMap fun (kind, d) =>
    match d with
    | .invalid a => some ⟨kind, a⟩
    | _ => none

/-- Draws the consequences of the decisions about a candidate. A condition that was not decided ends
the search, and then no counterexample is stored. -/
def conclude (s : Search g) (candidate : Term) (decisions : List (ConditionKind × Decision)) :
    Search g :=
  let s := { s with stats := { s.stats with queries := s.stats.queries + decisions.length } }
  match firstUnknown decisions with
  | some (kind, reason) => { s with state := .unknown kind reason }
  | none =>
    let cexs := counterexamples decisions
    { s with
      store := cexs.foldl Store.record s.store
      stats :=
        { s.stats with counterexamples := s.stats.counterexamples + cexs.length }
      state := if decisions.length = 3 && cexs.isEmpty then .found candidate else s.state }

/-- Processes a candidate that was just drawn. -/
def process (oracle : Oracle σ) (s : Search g) (candidate : Term) : StateM σ (Search g) := do
  let s := { s with stats := { s.stats with candidates := s.stats.candidates + 1 } }
  match s.store.firstViolated s.system candidate with
  | some _ => return { s with stats := { s.stats with rejected := s.stats.rejected + 1 } }
  | none => return s.conclude candidate (← s.check oracle candidate)

/-- Draws and processes one candidate, if it can be drawn within the given number of ticks. -/
def step (oracle : Oracle σ) (ticks : Nat) (s : Search g) (q : σ) : Option (Search g × σ) :=
  if s.state ≠ .searching then some (s, q)
  else if s.outOfBudget then some ({ s with state := .timeout }, q)
  else
    match s.enumerator.next ticks with
    | none => none
    | some (none, enumerator) => some ({ s with enumerator, state := .exhausted }, q)
    | some (some candidate, enumerator) => some (process oracle { s with enumerator } candidate q)

/-- Steps until a final state is reached, if that takes fewer than the given number of steps, and
each step fewer ticks than that. -/
def run (oracle : Oracle σ) : (steps : Nat) → Search g → σ → Option (Search g × σ)
  | 0, _, _ => none
  | steps + 1, s, q =>
    if s.state ≠ .searching then some (s, q)
    else (s.step oracle steps q).bind fun (s, q) => run oracle steps s q

end Search

end InvariantSearch
