import InvariantSearch.Proofs.ConditionValues
import InvariantSearch.Proofs.Windows

/-!
# Exhaustion

The bounded oracle decides a condition by the first assignment of the window that does not make it
true (`BoundedOracle.decide_spec`). The assignments are in lexicographic order
(`BoundedOracle.pairwise_assignments`), where the first variable counts most and the values of a
sort are compared by their place in the list of those that are tried (`Value.rank`): false before
true, and integers in the order 0, 1, -1, 2, -2 and so on.
-/

namespace InvariantSearch

/-! ## The order of values -/

namespace Value

/-- The place of a value among those of its sort: false and true, or 0, 1, -1, 2, -2 and so on. -/
def rank : Value → Nat
  | .bool b => b.toNat
  | .int i => if 0 < i.toInt then 2 * i.toInt.natAbs - 1 else 2 * i.toInt.natAbs

/-- The value comes before the other one. -/
def Before (v v' : Value) : Prop := v.rank < v'.rank

end Value

namespace Ty

variable {w : Nat} {ty : Ty}

theorem rank_nthValue {i : Nat} (hw : ty.windowSize w < 2 ^ 63) (hi : i < ty.windowSize w) :
    (ty.nthValue i).rank = i := by
  cases ty with
  | bool =>
    obtain rfl | rfl : i = 0 ∨ i = 1 := by
      simp only [windowSize] at hi
      omega
    · rfl
    · rfl
  | int =>
    simp only [windowSize] at hw hi
    obtain ⟨n, rfl | rfl⟩ : ∃ n, i = 2 * n ∨ i = 2 * n + 1 := ⟨i / 2, by omega⟩
    · rw [nthValue_even, Int64.neg_ofNat, Value.rank,
        Int64.toInt_ofInt_of_le (by omega) (by omega)]
      split <;> omega
    · rw [nthValue_odd, Value.rank, Int64.toInt_ofNat_of_lt (by omega)]
      split <;> omega

/-- The values are tried in order. -/
theorem pairwise_windowValues (hw : ty.windowSize w < 2 ^ 63) :
    (ty.windowValues w).Pairwise Value.Before := by
  refine List.pairwise_map.2 (List.pairwise_lt_range.imp_of_mem fun {i j} hi hj hlt => ?_)
  rw [Value.Before, rank_nthValue hw (List.mem_range.1 hi), rank_nthValue hw (List.mem_range.1 hj)]
  exact hlt

end Ty

/-! ## The order of assignments -/

/-- The values of the variables come before those in the other assignment: they do at the first
variable to which the two give different values. -/
def Assignment.Precedes (vars : List Binder) (a a' : Assignment) : Prop :=
  List.Lex Value.Before (a.values vars) (a'.values vars)

theorem Assignment.values_eq {vars : List Binder} {values : List Value} {a : Assignment}
    (h : List.Forall₂ (fun b v => a.get? b.name = some v) vars values) :
    a.values vars = values := by
  induction h with
  | nil => rfl
  | cons hv _ ih => rw [values_cons hv, ih]

theorem Assignment.values_ofList {vars : List Binder} {values : List Value}
    (nodup : (vars.map (·.name)).Nodup) (length : vars.length = values.length) :
    (ofList ((vars.map (·.name)).zip values)).values vars = values := by
  refine values_eq (List.forall₂_iff_zip.2 ⟨length, fun {b v} hmem => ?_⟩)
  rw [get?_ofList_eq]
  refine lookupLast_of_mem ?_ ?_
  · rwa [List.map_fst_zip (by simp [length])]
  · rw [List.zip_map_left]
    exact List.mem_map.2 ⟨(b, v), hmem, rfl⟩

namespace BoundedOracle

variable {w : Nat} {vars : List Binder} {formula : Term} {a : Assignment}

/-- The values that are tried for all variables together, in order. -/
def tuples (w : Nat) : List Binder → List (List Value)
  | [] => [[]]
  | b :: bs => (b.ty.windowValues w).flatMap fun v => (tuples w bs).map (v :: ·)

theorem assignments_eq (w : Nat) (vars : List Binder) (a : Assignment) :
    assignments w vars a = (tuples w vars).map fun values =>
      ((vars.map (·.name)).zip values).foldl (fun a p => a.insert p.1 p.2) a := by
  induction vars generalizing a with
  | nil => rfl
  | cons b bs ih =>
    rw [assignments, tuples, List.map_flatMap]
    refine congrArg (List.flatMap · _) (funext fun v => ?_)
    rw [ih, List.map_map]
    rfl

theorem pairwise_tuples (hw : ∀ b ∈ vars, b.ty.windowSize w < 2 ^ 63) :
    (tuples w vars).Pairwise (List.Lex Value.Before) := by
  induction vars with
  | nil => exact List.pairwise_singleton _ _
  | cons b bs ih =>
    rw [List.forall_mem_cons] at hw
    refine List.pairwise_flatMap.2 ⟨fun v _ => ?_, ?_⟩
    · exact List.pairwise_map.2 ((ih hw.2).imp fun h => .cons h)
    · refine (Ty.pairwise_windowValues hw.1).imp fun hlt x hx y hy => ?_
      obtain ⟨_, -, rfl⟩ := List.mem_map.1 hx
      obtain ⟨_, -, rfl⟩ := List.mem_map.1 hy
      exact .rel hlt

theorem mem_tuples {values : List Value} : values ∈ tuples w vars ↔
    List.Forall₂ (fun b v => v ∈ b.ty.windowValues w) vars values := by
  induction vars generalizing values with
  | nil => simp [tuples]
  | cons b bs ih => simp [tuples, ih, List.forall₂_cons_left_iff, eq_comm]

/-- The assignments of the window are tried, each once and in order. -/
theorem pairwise_assignments (nodup : (vars.map (·.name)).Nodup)
    (hw : ∀ b ∈ vars, b.ty.windowSize w < 2 ^ 63) :
    (assignments w vars .empty).Pairwise (Assignment.Precedes vars) := by
  rw [assignments_eq]
  refine List.pairwise_map.2 ((pairwise_tuples hw).imp_of_mem fun hvalues hvalues' hlex => ?_)
  have hsame := Assignment.values_ofList nodup (mem_tuples.1 hvalues).length_eq
  have hsame' := Assignment.values_ofList nodup (mem_tuples.1 hvalues').length_eq
  rw [Assignment.Precedes]
  exact (congrArg₂ (List.Lex Value.Before) hsame hsame').mpr hlex

/-- The search decides by the first assignment that does not make the formula true, if there is
one. -/
theorem findSome?_verdict (formula : Term) (as : List Assignment) :
    as.findSome? (verdict formula) =
      (as.find? fun a => formula.evalBool a.get? ≠ .ok true).bind (verdict formula) := by
  induction as with
  | nil => rfl
  | cons a as ih =>
    rw [List.findSome?_cons, List.find?_cons, ih]
    rcases h : formula.evalBool a.get? with e | _ | _ <;> simp [verdict, h]

/-- With too many assignments nothing is decided. Otherwise those of the window are tried, each once
and in lexicographic order. The condition is found valid if all of them make it true. If not, the
first that does not make it true decides: it is the counterexample if it makes the condition false,
and nothing is decided if the condition has no value there. -/
theorem decide_spec {c : Condition} (nodup : (c.vars.map (·.name)).Nodup) :
    let size := (c.vars.map fun b => b.ty.windowSize w).prod
    let tried := assignments w c.vars .empty
    let first := tried.find? fun a => c.formula.evalBool a.get? ≠ .ok true
    (50000000 < size → ∃ reason, decide w c = .unknown reason) ∧
    (size ≤ 50000000 →
      (∀ a, a ∈ tried ↔ a.InWindow w c.vars) ∧
      tried.Pairwise (Assignment.Precedes c.vars) ∧
      (decide w c = .valid ↔ ∀ a ∈ tried, c.formula.evalBool a.get? = .ok true) ∧
      (∀ a, decide w c = .invalid a ↔ first = some a ∧ c.formula.evalBool a.get? = .ok false) ∧
      ((∃ reason, decide w c = .unknown reason) ↔
        ∃ a e, first = some a ∧ c.formula.evalBool a.get? = .error e)) := by
  intro size tried first
  have hsize : (c.vars.map fun b => b.ty.windowSize w).foldl (· * ·) 1 = size :=
    List.prod_eq_foldl.symm
  constructor
  · intro hlarge
    have hlarge' : size > maxAssignments := hlarge
    rw [decide, hsize, if_pos hlarge']
    exact ⟨_, rfl⟩
  intro hsmall
  have hsmall' : ¬size > maxAssignments := not_lt.2 hsmall
  have hw (b : Binder) : b ∈ c.vars → b.ty.windowSize w < 2 ^ 63 :=
    windowSize_lt (hsize.trans_le hsmall)
  have hdecide : decide w c = (first.bind (verdict c.formula)).getD .valid := by
    rw [decide, hsize, if_neg hsmall', search_eq, findSome?_verdict]
  refine ⟨fun a => mem_assignments_empty hw, pairwise_assignments nodup hw, ?_⟩
  rw [hdecide]
  cases hfirst : first with
  | none =>
    have hall : ∀ a ∈ tried, c.formula.evalBool a.get? = .ok true := by
      simpa [first] using hfirst
    simpa using hall
  | some a =>
    have hne : c.formula.evalBool a.get? ≠ .ok true := by simpa using List.find?_some hfirst
    have hmem : a ∈ tried := List.mem_of_find?_eq_some hfirst
    have hnot : ¬∀ a ∈ tried, c.formula.evalBool a.get? = .ok true := fun h => hne (h a hmem)
    rcases heval : c.formula.evalBool a.get? with e | _ | _
    · simp [verdict, heval, hnot]
    · simp [verdict, heval, hnot]
    · exact absurd heval hne

/-- Whether a number that is less than one unless a truth value holds. -/
def lessThanOneUnless : Condition :=
  { kind := .init
    vars := [⟨"x", .int⟩, ⟨"b", .bool⟩]
    formula := .nary .or [.compare .lt (.id "x") (.int 1), .id "b"] }

/-- The first counterexample has the number one. -/
theorem decide_spec_lessThanOneUnless :
    (lessThanOneUnless.vars.map (·.name)).Nodup ∧
    (lessThanOneUnless.vars.map fun b => b.ty.windowSize 2).prod ≤ 50000000 ∧
    decide 2 lessThanOneUnless = .invalid ⟨[("b", .bool false), ("x", .int 1)]⟩ := by
  have nodup : (lessThanOneUnless.vars.map (·.name)).Nodup := by decide
  have hsize : (lessThanOneUnless.vars.map fun b => b.ty.windowSize 2).prod ≤ 50000000 := by decide
  obtain ⟨-, -, -, hinvalid, -⟩ := (decide_spec (w := 2) nodup).2 hsize
  exact ⟨nodup, hsize, (hinvalid _).2 (by decide +kernel)⟩

end BoundedOracle

end InvariantSearch
