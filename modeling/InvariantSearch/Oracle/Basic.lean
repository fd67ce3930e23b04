import InvariantSearch.Transition

/-!
# Oracles

An oracle decides whether a condition is valid. It answers with a `Decision`, and it may remember
something from one query to the next, which is its state `σ`.
-/

namespace InvariantSearch

/-- The answer to a condition. -/
inductive Decision where
  /-- It holds under every assignment. -/
  | valid
  /-- It is false under this assignment. -/
  | invalid (a : Assignment)
  /-- It could not be decided, for this reason. -/
  | unknown (reason : String)
  deriving DecidableEq

namespace Decision

/-- The written form of a decision. -/
def render : Decision → String
  | .valid => "valid"
  | .invalid a => "invalid (" ++ a.render ++ ")"
  | .unknown reason => "unknown (" ++ reason ++ ")"

end Decision

/-- A decision procedure with state `σ`. -/
abbrev Oracle (σ : Type) := Condition → StateM σ Decision

namespace Oracle

/-- The oracle that answers with a function of the condition. -/
def ofFunction (decide : Condition → Decision) : Oracle Unit := fun c => pure (decide c)

/-- The oracle that answers from a list, whatever it is asked. -/
def ofScript : Oracle (List Decision) := fun _ decisions =>
  match decisions with
  | [] => (.unknown "script exhausted", [])
  | d :: ds => (d, ds)

/-- The oracle that also keeps the conditions it was asked, with its answers, the latest first. -/
def logged {σ : Type} (oracle : Oracle σ) : Oracle (σ × List (Condition × Decision)) :=
  fun c (q, log) =>
    let (d, q) := oracle c q
    (d, q, (c, d) :: log)

end Oracle

/-! ## Counting decisions -/

/-- How many decisions of each kind there were. -/
structure DecisionCounts where
  valid : Nat
  invalid : Nat
  unknown : Nat
  deriving DecidableEq

namespace DecisionCounts

/-- No decisions. -/
def zero : DecisionCounts := ⟨0, 0, 0⟩

/-- Counts one more decision. -/
def add (n : DecisionCounts) : Decision → DecisionCounts
  | .valid => { n with valid := n.valid + 1 }
  | .invalid _ => { n with invalid := n.invalid + 1 }
  | .unknown _ => { n with unknown := n.unknown + 1 }

/-- Counts the decisions of a list. -/
def ofList (ds : List Decision) : DecisionCounts := ds.foldl add zero

/-- The counts after each of the decisions. -/
def history (n : DecisionCounts) : List Decision → List DecisionCounts
  | [] => []
  | d :: ds => n.add d :: (n.add d).history ds

/-- How many decisions there were. -/
def total (n : DecisionCounts) : Nat := n.valid + n.invalid + n.unknown

end DecisionCounts

/-- The oracle that also counts its decisions. -/
def Oracle.counted {σ : Type} (oracle : Oracle σ) : Oracle (σ × DecisionCounts) := fun c (q, n) =>
  let (d, q) := oracle c q
  (d, q, n.add d)

end InvariantSearch
