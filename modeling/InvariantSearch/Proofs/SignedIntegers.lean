import InvariantSearch.Oracle.Smt
import InvariantSearch.Proofs.PrintedDefinitions

/-!
# Signed integers in s-expressions

What is written for a word is read back after printing (`Sexp.parse_render_ofInt`), and what it
stands for is the word again, unless this is the least one. The least word is written as the
negation of its absolute value, and this does not fit into a word before the sign is taken. There is
no other way to write it either: no tree is read as the least word (`Sexp.int?_ne_minValue`).

Three readers rely on this: the one of integers, the one of values in the model of a solver, and the
one of terms. `Sexp.reads_back_iff` says of each that it reads back every word but the least.
-/

namespace InvariantSearch

namespace Sexp

/-- No tree is read as the least word. -/
theorem int?_ne_minValue (e : Sexp) : e.int? ≠ some Int64.minValue := by
  intro h
  have hmin : Int64.minValue.toInt = -9223372036854775808 := rfl
  unfold int? at h
  split at h
  next n =>
    -- a numeral has no sign
    have hvalue := fitWord?_eq_some_iff.1 h
    omega
  next head e =>
    split at h
    next =>
      -- the absolute value would be a word itself
      obtain ⟨i, -, hfit⟩ := Option.bind_eq_some_iff.1 h
      have hvalue := fitWord?_eq_some_iff.1 hfit
      have hlt := i.toInt_lt
      omega
    next => cases h
  next => cases h

theorem parse_render_ofInt (i : Int64) : parse (ofInt i).render = .ok (ofInt i) :=
  (legible_ofInt i).parse_render

theorem int?_ofInt_iff (i : Int64) : (ofInt i).int? = some i ↔ i ≠ Int64.minValue := by
  refine ⟨?_, Term.int?_ofInt⟩
  rintro h rfl
  exact int?_ne_minValue _ h

theorem ofSexp?_ofInt_iff (i : Int64) :
    Value.ofSexp? .int (ofInt i) = some (.int i) ↔ i ≠ Int64.minValue := by
  rw [← int?_ofInt_iff, Value.ofSexp?]
  simp

theorem ofSexp_ofInt_minValue :
    Term.ofSexp (ofInt Int64.minValue) = .error (.numeral 9223372036854775808) := by
  decide +kernel

theorem ofSexp_ofInt_iff (i : Int64) :
    Term.ofSexp (ofInt i) = .ok (.int i) ↔ i ≠ Int64.minValue := by
  refine ⟨?_, Term.ofSexp_ofInt⟩
  rintro h rfl
  rw [ofSexp_ofInt_minValue] at h
  cases h

/-- What is written for a word is read as the same tree after it is printed. This tree stands for
the word again if and only if the word is not the least one; and only then does the tree give the
word in the model of a solver, and is the literal read back as a term once it is printed. -/
theorem reads_back_iff (i : Int64) :
    ((ofInt i).int? = some i ↔ i ≠ Int64.minValue) ∧
    parse (ofInt i).render = .ok (ofInt i) ∧
    (Value.ofSexp? .int (ofInt i) = some (.int i) ↔ i ≠ Int64.minValue) ∧
    ∃ e, parse (Term.int i).render = .ok e ∧
      (Term.ofSexp e = .ok (.int i) ↔ i ≠ Int64.minValue) := by
  have hparse : parse (Term.int i).render = .ok (ofInt i) := parse_render_ofInt i
  exact ⟨int?_ofInt_iff i, parse_render_ofInt i, ofSexp?_ofInt_iff i, _, hparse,
    ofSexp_ofInt_iff i⟩

/-- The least word is written and printed like any other. It is read back neither as a word nor as a
literal. -/
theorem least_not_read_back :
    (ofInt Int64.minValue).int? = none ∧
    parse (Term.int Int64.minValue).render = .ok (ofInt Int64.minValue) ∧
    Term.ofSexp (ofInt Int64.minValue) = .error (.numeral 9223372036854775808) :=
  ⟨by decide, parse_render_ofInt _, ofSexp_ofInt_minValue⟩

end Sexp

end InvariantSearch
