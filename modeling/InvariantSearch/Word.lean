/-!
# Signed 64-bit words

Integer constants and values are 64-bit words, and no arithmetic wraps: a result is computed over
the integers and then fitted back into a word, which fails when it is out of range. So a word
operation either agrees with the integers or has no answer (`fitWord?_eq_some_iff`).
-/

namespace InvariantSearch

/-- The word that stands for `n`, if `n` lies in `[-2^63, 2^63)`. -/
def fitWord? (n : Int) : Option Int64 :=
  if -9223372036854775808 ≤ n ∧ n < 9223372036854775808 then some (Int64.ofInt n) else none

theorem fitWord?_eq_some_iff {n : Int} {w : Int64} : fitWord? n = some w ↔ w.toInt = n := by
  unfold fitWord?
  constructor
  · intro h
    split at h
    · rename_i hn
      cases h
      exact Int64.toInt_ofInt_of_le hn.1 hn.2
    · cases h
  · rintro rfl
    rw [if_pos ⟨w.le_toInt, w.toInt_lt⟩, Int64.ofInt_toInt]

theorem fitWord?_eq_none_iff {n : Int} :
    fitWord? n = none ↔ n < -9223372036854775808 ∨ 9223372036854775808 ≤ n := by
  unfold fitWord?
  split <;> simp <;> omega

end InvariantSearch
