import InvariantSearch.Oracle.Bounded
import Mathlib.Algebra.BigOperators.Group.List.Basic
import Mathlib.Algebra.Order.BigOperators.GroupWithZero.List
import Mathlib.Algebra.Order.Ring.Nat
import Mathlib.Data.List.Sections
import Mathlib.Data.Set.Finite.List

/-!
# Windows

The bounded oracle tries the assignments of a window, one by one (`BoundedOracle.search_eq`). A
counterexample that it gives lies in the window and makes the condition false
(`BoundedOracle.spec_of_invalid`), and a window holds finitely many assignments
(`Assignment.finite_inWindow`).
-/

namespace InvariantSearch

/-! ## Values -/

/-- A value of the sort is in the window from `-w` to `w`; truth values are in every window. -/
def Value.InWindow (w : Nat) : Ty → Value → Prop
  | .bool, .bool _ => True
  | .int, .int i => i.toInt.natAbs ≤ w
  | _, _ => False

namespace Ty

/-- The values of the sort that are tried, in order. -/
def windowValues (w : Nat) (ty : Ty) : List Value := (List.range (ty.windowSize w)).map ty.nthValue

theorem nthValue_odd (n : Nat) : Ty.int.nthValue (2 * n + 1) = .int (Int64.ofNat (n + 1)) := by
  have hodd : (2 * n + 1) % 2 = 1 := by omega
  have hhalf : (2 * n + 1 + 1) / 2 = n + 1 := by omega
  rw [nthValue, if_pos hodd, hhalf]

theorem nthValue_even (n : Nat) : Ty.int.nthValue (2 * n) = .int (-Int64.ofNat n) := by
  have heven : ¬2 * n % 2 = 1 := by omega
  have hhalf : 2 * n / 2 = n := by omega
  rw [nthValue, if_neg heven, hhalf]

/-- What is tried lies in the window, as far as words reach. -/
theorem inWindow_nthValue {w i : Nat} {ty : Ty} (hw : ty.windowSize w < 2 ^ 63)
    (hi : i < ty.windowSize w) : (ty.nthValue i).InWindow w ty := by
  cases ty with
  | bool => exact trivial
  | int =>
    simp only [windowSize] at hw hi
    obtain ⟨n, rfl | rfl⟩ : ∃ n, i = 2 * n ∨ i = 2 * n + 1 := ⟨i / 2, by omega⟩
    · rw [nthValue_even, Int64.neg_ofNat]
      show (Int64.ofInt (-n)).toInt.natAbs ≤ w
      rw [Int64.toInt_ofInt_of_le (by omega) (by omega)]
      omega
    · rw [nthValue_odd]
      show (Int64.ofNat (n + 1)).toInt.natAbs ≤ w
      rw [Int64.toInt_ofNat_of_lt (by omega)]
      omega

/-- All of the window is tried. -/
theorem mem_windowValues {w : Nat} {ty : Ty} {v : Value} (h : v.InWindow w ty) :
    v ∈ ty.windowValues w := by
  cases ty with
  | bool =>
    match v, h with
    | .bool b, _ => cases b <;> simp [windowValues, windowSize, nthValue, List.range_succ]
  | int =>
    match v, h with
    | .int i, h =>
      have hi : i.toInt.natAbs ≤ w := h
      refine List.mem_map.2 ?_
      by_cases hpos : 0 < i.toInt
      · refine ⟨2 * (i.toInt.natAbs - 1) + 1, List.mem_range.2 ?_, ?_⟩
        · simp only [windowSize]
          omega
        have hlt := i.toInt_lt
        rw [nthValue_odd]
        refine congrArg Value.int (Int64.toInt_inj.1 ?_)
        rw [Int64.toInt_ofNat_of_lt (by omega)]
        omega
      · refine ⟨2 * i.toInt.natAbs, List.mem_range.2 (by simp only [windowSize]; omega), ?_⟩
        rw [nthValue_even, Int64.neg_ofNat]
        have hsame : -(i.toInt.natAbs : Int) = i.toInt := by omega
        rw [hsame, Int64.ofInt_toInt]

end Ty

/-! ## Assignments -/

namespace Assignment

/-- The assignment gives the variables, in order, values of their sorts in the window, and gives no
others any. -/
def InWindow (w : Nat) (vars : List Binder) (a : Assignment) : Prop :=
  ∃ values : List Value, List.Forall₂ (fun b v => v.InWindow w b.ty) vars values ∧
    a = .ofList ((vars.map (·.name)).zip values)

/-- A window holds finitely many assignments. -/
theorem finite_inWindow (w : Nat) (vars : List Binder) : {a | InWindow w vars a}.Finite := by
  have hvalues := List.finite_toSet ((vars.map fun b => b.ty.windowValues w).sections)
  refine (hvalues.image fun values => ofList ((vars.map (·.name)).zip values)).subset ?_
  rintro a ⟨values, hin, rfl⟩
  refine ⟨values, List.mem_sections.2 ?_, rfl⟩
  rw [List.forall₂_map_right_iff]
  exact (hin.imp fun _ _ => Ty.mem_windowValues).flip

end Assignment

namespace BoundedOracle

variable {w : Nat} {formula : Term} {vars : List Binder} {a a' : Assignment}

/-- The assignments that are tried, in order, where the assignment `a` goes on with values for the
given variables. -/
def assignments (w : Nat) : List Binder → Assignment → List Assignment
  | [], a => [a]
  | b :: bs, a => (b.ty.windowValues w).flatMap fun v => assignments w bs (a.insert b.name v)

/-- What an assignment says about a formula, if it does not make it true. -/
def verdict (formula : Term) (a : Assignment) : Option Decision :=
  match formula.evalBool a.get? with
  | .ok true => none
  | .ok false => some (.invalid a)
  | .error e => some (.unknown ("evaluation failed: " ++ e.message))

theorem findSome?_flatMap {α β γ : Type} (xs : List α) (f : α → List β) (p : β → Option γ) :
    (xs.flatMap f).findSome? p = xs.findSome? fun x => (f x).findSome? p := by
  induction xs with
  | nil => rfl
  | cons x xs ih =>
    rw [List.flatMap_cons, List.findSome?_append, ih, List.findSome?_cons]
    cases (f x).findSome? p <;> rfl

/-- The search decides by the first of the assignments that does not make the formula true. -/
theorem search_eq (w : Nat) (formula : Term) (vars : List Binder) (a : Assignment) :
    search w formula vars a = (assignments w vars a).findSome? (verdict formula) := by
  induction vars generalizing a with
  | nil =>
    rw [assignments, List.findSome?_singleton]
    rfl
  | cons b bs ih =>
    rw [search, firstResult_eq_findSome?, assignments, findSome?_flatMap, Ty.windowValues,
      List.findSome?_map, List.range_eq_range']
    exact congrArg (List.findSome? · _) (funext fun i => ih _)

theorem mem_assignments : a' ∈ assignments w vars a ↔ ∃ values,
    List.Forall₂ (fun b v => v ∈ b.ty.windowValues w) vars values ∧
      a' = ((vars.map (·.name)).zip values).foldl (fun a p => a.insert p.1 p.2) a := by
  induction vars generalizing a with
  | nil => simp [assignments]
  | cons b bs ih => simp [assignments, ih, List.forall₂_cons_left_iff, and_assoc]

/-- What the search gives as a counterexample makes the formula false. -/
theorem evalBool_of_search (h : search w formula vars a = some (.invalid a')) :
    a' ∈ assignments w vars a ∧ formula.evalBool a'.get? = .ok false := by
  rw [search_eq] at h
  obtain ⟨b, hb, hverdict⟩ := List.exists_of_findSome?_eq_some h
  unfold verdict at hverdict
  split at hverdict
  next => cases hverdict
  next heval =>
    obtain rfl := Decision.invalid.inj (Option.some.inj hverdict)
    exact ⟨hb, heval⟩
  next => cases hverdict

/-- The window of each variable is no larger than the number of assignments. -/
theorem windowSize_le {b : Binder} (hb : b ∈ vars) :
    b.ty.windowSize w ≤ (vars.map fun b => b.ty.windowSize w).foldl (· * ·) 1 := by
  rw [← List.prod_eq_foldl]
  refine Nat.le_of_dvd (List.prod_pos fun n hn => ?_) (List.dvd_prod (List.mem_map_of_mem hb))
  obtain ⟨b', -, rfl⟩ := List.mem_map.1 hn
  cases b'.ty <;> simp [Ty.windowSize]

/-- Where assignments are tried at all, words reach over all of the window. -/
theorem windowSize_lt (h : (vars.map fun b => b.ty.windowSize w).foldl (· * ·) 1 ≤ maxAssignments)
    {b : Binder} (hb : b ∈ vars) : b.ty.windowSize w < 2 ^ 63 := by
  have hle := (windowSize_le hb).trans h
  simp only [maxAssignments] at hle
  omega

/-- Just the assignments of the window are tried. -/
theorem mem_assignments_empty (hw : ∀ b ∈ vars, b.ty.windowSize w < 2 ^ 63) :
    a ∈ assignments w vars .empty ↔ a.InWindow w vars := by
  have hvalue {b : Binder} (hb : b ∈ vars) {v : Value} :
      v ∈ b.ty.windowValues w ↔ v.InWindow w b.ty := by
    refine ⟨fun hv => ?_, Ty.mem_windowValues⟩
    obtain ⟨i, hi, rfl⟩ := List.mem_map.1 hv
    exact Ty.inWindow_nthValue (hw b hb) (List.mem_range.1 hi)
  have hvalues (values : List Value) :
      List.Forall₂ (fun b v => v ∈ b.ty.windowValues w) vars values ↔
        List.Forall₂ (fun b v => v.InWindow w b.ty) vars values := by
    rw [List.forall₂_iff_zip, List.forall₂_iff_zip]
    refine and_congr_right fun _ => forall₂_congr fun b v => imp_congr_right fun hmem => ?_
    exact hvalue (List.of_mem_zip hmem).1
  rw [mem_assignments, Assignment.InWindow]
  exact exists_congr fun values => and_congr_left' (hvalues values)

/-- A counterexample of the bounded oracle lies in the window and makes the condition false. -/
theorem spec_of_invalid {c : Condition} (h : decide w c = .invalid a) :
    a.InWindow w c.vars ∧ c.formula.evalBool a.get? = .ok false := by
  unfold decide at h
  split at h
  next => cases h
  next hsize =>
    cases hsearch : search w c.formula c.vars .empty with
    | none =>
      rw [hsearch] at h
      cases h
    | some d =>
      rw [hsearch] at h
      obtain rfl : d = .invalid a := h
      obtain ⟨hmem, heval⟩ := evalBool_of_search hsearch
      exact ⟨(mem_assignments_empty fun b => windowSize_lt (not_lt.1 hsize)).1 hmem, heval⟩

end BoundedOracle

end InvariantSearch
