import InvariantSearch.Oracle.Basic

/-!
# Deciding by exhaustion

The bounded oracle evaluates a condition under every assignment in which integers lie in a window
around zero. Assignments are tried in lexicographic order, the first variable changing slowest and
integers by absolute value, so that the first counterexample found is a small one. "Valid" means
valid inside the window.
-/

namespace InvariantSearch

namespace Ty

/-- How many values of a sort lie in the window from `-w` to `w`. -/
def windowSize (w : Nat) : Ty → Nat
  | .bool => 2
  | .int => 2 * w + 1

/-- The `i`-th value of a sort, from 0: false and true, or 0, 1, -1, 2, -2 and so on. -/
def nthValue (i : Nat) : Ty → Value
  | .bool => .bool (i = 1)
  | .int => .int (if i % 2 = 1 then Int64.ofNat ((i + 1) / 2) else -Int64.ofNat (i / 2))

end Ty

/-- The first result of `f` at the arguments `i`, `i + 1`, … of which there are `n`. -/
def firstResult {α : Type} (f : Nat → Option α) : (n i : Nat) → Option α
  | 0, _ => none
  | n + 1, i =>
    match f i with
    | some x => some x
    | none => firstResult f n (i + 1)

theorem firstResult_eq_findSome? {α : Type} (f : Nat → Option α) (n i : Nat) :
    firstResult f n i = (List.range' i n).findSome? f := by
  induction n generalizing i with
  | zero => rfl
  | succ n ih => cases h : f i <;> simp [firstResult, List.range'_succ, h, ih]

namespace BoundedOracle

/-- The most assignments that are tried. -/
def maxAssignments : Nat := 50000000

/-- The decision about a formula at the first assignment that does not make it true, where the
assignment `a` goes on with values for the given variables. -/
def search (w : Nat) (formula : Term) : List Binder → Assignment → Option Decision
  | [], a =>
    match formula.evalBool a.get? with
    | .ok true => none
    | .ok false => some (.invalid a)
    | .error e => some (.unknown ("evaluation failed: " ++ e.message))
  | b :: bs, a =>
    firstResult (fun i => search w formula bs (a.insert b.name (b.ty.nthValue i)))
      (b.ty.windowSize w) 0

/-- Decides a condition in the window from `-w` to `w`. -/
def decide (w : Nat) (c : Condition) : Decision :=
  if (c.vars.map fun b => b.ty.windowSize w).foldl (· * ·) 1 > maxAssignments then
    .unknown (toString c.vars.length ++ " variables over window " ++ toString w ++
      " is too many assignments")
  else (search w c.formula c.vars .empty).getD .valid

end BoundedOracle

/-- The oracle that tries all assignments in the window from `-w` to `w`. -/
def Oracle.bounded (w : Nat) : Oracle Unit := .ofFunction (BoundedOracle.decide w)

end InvariantSearch
