import InvariantSearch.Proofs.Refutation

/-!
# Evaluation of well-sorted terms

Evaluation in words meets one obstacle alone on a well-sorted term whose variables have values of
their sorts: the result of an arithmetic operation that no word stands for. So it either has a
result, and that is the exact value of the term, or it reports an overflow, and then some arithmetic
subterm has an exact value out of range (`eval_of_sortOf`). The exact value takes all operands into
account: to skip operands changes no result, but an overflow in them is not met.
-/

namespace InvariantSearch

/-! ## Computations that can overflow -/

/-- The computation has a result, or it reports an overflow and `P` holds. -/
def Settles {α : Type} (x : Except EvalError α) (P : Prop) : Prop :=
  (∃ a, x = .ok a) ∨ x = .error .overflow ∧ P

section Settles

variable {α β : Type} {x : Except EvalError α} {f : α → Except EvalError β} {P Q : Prop}

theorem settles_ok (a : α) : Settles (.ok a) P :=
  .inl ⟨a, rfl⟩

theorem Settles.imp (h : Settles x P) (hPQ : P → Q) : Settles x Q :=
  Or.imp_right (And.imp_right hPQ) h

theorem Settles.bind (hx : Settles x P) (hf : ∀ a, x = .ok a → Settles (f a) P) :
    Settles (x >>= f) P := by
  rcases hx with ⟨a, rfl⟩ | ⟨rfl, hP⟩
  · exact hf a rfl
  · exact .inr ⟨rfl, hP⟩

theorem settles_asBool {v : Value} (h : v.ty = .bool) : Settles v.asBool P := by
  cases v with
  | bool b => exact settles_ok b
  | int i => cases h

theorem settles_asInt {v : Value} (h : v.ty = .int) : Settles v.asInt P := by
  cases v with
  | bool b => cases h
  | int i => exact settles_ok i

theorem settles_ofResults (op : NaryOp) {xs : List (Except EvalError Value)}
    (hxs : ∀ x ∈ xs, Settles x P) (hty : ∀ x ∈ xs, ∀ v, x = .ok v → v.ty = .bool) :
    Settles (op.ofResults xs) P := by
  induction xs with
  | nil => exact settles_ok _
  | cons x xs ih =>
    rw [List.forall_mem_cons] at hxs hty
    refine hxs.1.bind fun v hv => (settles_asBool (hty.1 v hv)).bind fun b _ => ?_
    split
    next => exact settles_ok b
    next => exact ih hxs.2 hty.2

theorem settles_ofInt {n : Int} (h : fitWord? n = none → P) : Settles (Value.ofInt n) P := by
  unfold Value.ofInt
  split
  next i _ => exact settles_ok _
  next hn => exact .inr ⟨rfl, h hn⟩

end Settles

namespace Term

/-! ## Arithmetic out of range -/

/-- The term is the other one or occurs in it. -/
inductive Subterm (s : Term) : Term → Prop
  | refl : Subterm s s
  | child {t u : Term} (ht : t ∈ u.children) (h : Subterm s t) : Subterm s u

/-- Whether the term is a negation of an integer or an operation on two integers. -/
def isArithmetic : Term → Bool
  | .unary .neg _ | .arith _ _ _ => true
  | _ => false

/-- Some arithmetic subterm has an exact value for which there is no word. -/
def LeavesRange (ρ : Valuation) (t : Term) : Prop :=
  ∃ s, Subterm s t ∧ s.isArithmetic = true ∧
    ∃ n, s.meaning .empty ρ = some (.int n) ∧ fitWord? n = none

variable {ρ : Valuation} {env : String → Option Value} {ctx : Context} {t u : Term} {ty : Ty}

theorem settles_of_child {α : Type} {x : Except EvalError α} (h : Settles x (t.LeavesRange ρ))
    (ht : t ∈ u.children) : Settles x (u.LeavesRange ρ) :=
  h.imp fun ⟨s, hs, harith, hn⟩ => ⟨s, .child ht hs, harith, hn⟩

/-! ## Evaluation in words -/

/-- The environment gives every variable in scope a value of its sort, and the valuation gives it
the same value. -/
def Supplies (env : String → Option Value) (ρ : Valuation) (ctx : Context) : Prop :=
  (∀ x v, env x = some v → ρ x = some v.datum) ∧
    ∀ x ty, ctx x = some ty → ∃ v, env x = some v ∧ v.ty = ty

theorem Supplies.fits (h : Supplies env ρ ctx) : ρ.Fits ctx := by
  intro x ty hx
  obtain ⟨v, hv, hty⟩ := h.2 x ty hx
  exact ⟨v.datum, h.1 x v hv, by rw [Value.datum_ty, hty]⟩

/-- A result in words is the exact value. -/
theorem HasTy.meaning_of_eval (h : HasTy [] ctx t ty) (hρ : Supplies env ρ ctx) {v : Value}
    (heval : t.eval env = .ok v) : t.meaning .empty ρ = some v.datum ∧ v.ty = ty := by
  obtain ⟨w, hw, hty⟩ := h.exists_meaning Interpretation.empty_fits hρ.fits
  obtain rfl := meaning_eq_of_eval hρ.1 t v w heval hw
  exact ⟨hw, by rwa [Value.datum_ty] at hty⟩

/-- Evaluation of a well-sorted term has a result unless arithmetic leaves the range. -/
theorem HasTy.settles_eval (h : HasTy [] ctx t ty) (hρ : Supplies env ρ ctx) :
    Settles (t.eval env) (t.LeavesRange ρ) := by
  induction h with
  | bool b => exact settles_ok _
  | int i => exact settles_ok _
  | id hx =>
    obtain ⟨v, hv, -⟩ := hρ.2 _ _ hx
    rw [eval, hv]
    exact settles_ok v
  | app hf => simp [Signature.find?] at hf
  | not ht ih =>
    rw [eval]
    refine (settles_of_child ih (by simp [children])).bind fun v hv => ?_
    exact (settles_asBool (ht.meaning_of_eval hρ hv).2).bind fun b _ => settles_ok _
  | neg ht ih =>
    rw [eval]
    refine (settles_of_child ih (by simp [children])).bind fun v hv => ?_
    obtain ⟨hmeaning, hty⟩ := ht.meaning_of_eval hρ hv
    refine (settles_asInt hty).bind fun i hi => settles_ofInt fun hn => ?_
    obtain rfl := asInt_eq_ok_iff.1 hi
    exact ⟨_, .refl, rfl, -i.toInt, by simp [meaning, hmeaning, UnaryOp.exact, Value.datum], hn⟩
  | equals hs ht ihs iht =>
    rw [eval]
    refine (settles_of_child ihs (by simp [children])).bind fun v hv => ?_
    refine (settles_of_child iht (by simp [children])).bind fun w hw => ?_
    rw [(hs.meaning_of_eval hρ hv).2, (ht.meaning_of_eval hρ hw).2, if_pos rfl]
    exact settles_ok _
  | implies hs ht ihs iht =>
    rw [eval]
    refine (settles_of_child ihs (by simp [children])).bind fun v hv => ?_
    refine (settles_asBool (hs.meaning_of_eval hρ hv).2).bind fun b _ => ?_
    cases b with
    | true =>
      refine (settles_of_child iht (by simp [children])).bind fun w hw => ?_
      exact (settles_asBool (ht.meaning_of_eval hρ hw).2).bind fun c _ => settles_ok _
    | false => exact settles_ok _
  | @nary op ts _ hts ih =>
    have hall (t : Term) (ht : t ∈ ts) : Settles (t.eval env) (LeavesRange ρ (.nary op ts)) :=
      settles_of_child (ih t ht) ht
    have hty (t : Term) (ht : t ∈ ts) (v : Value) (hv : t.eval env = .ok v) : v.ty = .bool :=
      ((hts t ht).meaning_of_eval hρ hv).2
    have hresults : Settles (op.ofResults (ts.map (eval env))) (LeavesRange ρ (.nary op ts)) :=
      settles_ofResults op (List.forall_mem_map.2 hall) (List.forall_mem_map.2 hty)
    rw [eval_nary]
    exact hresults.bind fun b _ => settles_ok _
  | @arith op s t hs ht ihs iht =>
    rw [eval]
    refine (settles_of_child ihs (by simp [children])).bind fun v hv => ?_
    obtain ⟨hmeaning, hty⟩ := hs.meaning_of_eval hρ hv
    refine (settles_asInt hty).bind fun i hi => ?_
    refine (settles_of_child iht (by simp [children])).bind fun w hw => ?_
    obtain ⟨hmeaning', hty'⟩ := ht.meaning_of_eval hρ hw
    refine (settles_asInt hty').bind fun j hj => settles_ofInt fun hn => ?_
    obtain rfl := asInt_eq_ok_iff.1 hi
    obtain rfl := asInt_eq_ok_iff.1 hj
    exact ⟨_, .refl, rfl, op.apply i.toInt j.toInt,
      by simp [meaning, hmeaning, hmeaning', ArithOp.exact, Value.datum], hn⟩
  | compare hs ht ihs iht =>
    rw [eval]
    refine (settles_of_child ihs (by simp [children])).bind fun v hv => ?_
    refine (settles_asInt (hs.meaning_of_eval hρ hv).2).bind fun i _ => ?_
    refine (settles_of_child iht (by simp [children])).bind fun w hw => ?_
    exact (settles_asInt (ht.meaning_of_eval hρ hw).2).bind fun j _ => settles_ok _
  | ite hc _ _ ihc iht ihe =>
    rw [eval]
    refine (settles_of_child ihc (by simp [children])).bind fun v hv => ?_
    refine (settles_asBool (hc.meaning_of_eval hρ hv).2).bind fun b _ => ?_
    cases b with
    | true => exact settles_of_child iht (by simp [children])
    | false => exact settles_of_child ihe (by simp [children])

/-- A term of a sort, whose variables have values of their sorts, has an exact value of that sort.
Evaluation either returns this value, or reports an overflow; no other error is possible. In case of
an overflow some arithmetic subterm has an exact value out of the range of a word. -/
theorem eval_of_sortOf {a : Assignment} (h : t.sortOf [] ctx = .ok ty)
    (ha : ∀ x ty, ctx x = some ty → ∃ v, a.get? x = some v ∧ v.ty = ty) :
    ∃ w, t.meaning .empty a.valuation = some w ∧ w.ty = ty ∧
      ((∃ v, t.eval a.get? = .ok v ∧ v.ty = ty ∧ v.datum = w) ∨
        t.eval a.get? = .error .overflow ∧
          ∃ s, Subterm s t ∧ s.isArithmetic = true ∧ ∃ n,
            s.meaning .empty a.valuation = some (.int n) ∧ (n < -2 ^ 63 ∨ 2 ^ 63 ≤ n)) := by
  have hty := hasTy_of_sortOf t ty h
  have hρ : Supplies a.get? a.valuation ctx :=
    ⟨fun x v hx => by rw [Assignment.valuation, hx, Option.map_some], ha⟩
  obtain ⟨w, hw, hwty⟩ := hty.exists_meaning Interpretation.empty_fits hρ.fits
  refine ⟨w, hw, hwty, ?_⟩
  rcases hty.settles_eval hρ with ⟨v, hv⟩ | ⟨herror, s, hs, harith, n, hn, hout⟩
  · obtain ⟨hmeaning, hvty⟩ := hty.meaning_of_eval hρ hv
    exact .inl ⟨v, hv, hvty, Option.some.inj (hmeaning.symm.trans hw)⟩
  · exact .inr ⟨herror, s, hs, harith, n, hn, fitWord?_eq_none_iff.1 hout⟩

/-- Whether the square of a number is zero. -/
def squareIsZero : Term := .equals (.arith .mul (.id "x") (.id "x")) (.int 0)

def atTwoTo62 : Assignment := .ofList [("x", .int 4611686018427387904)]

/-- The square of `2 ^ 62` has no word. -/
theorem eval_squareIsZero :
    squareIsZero.sortOf [] (.ofBinders [⟨"x", .int⟩]) = .ok .bool ∧
    squareIsZero.eval atTwoTo62.get? = .error .overflow ∧
    ∃ s, Subterm s squareIsZero ∧ s.isArithmetic = true ∧ ∃ n,
      s.meaning .empty atTwoTo62.valuation = some (.int n) ∧ (n < -2 ^ 63 ∨ 2 ^ 63 ≤ n) := by
  have hsort : squareIsZero.sortOf [] (.ofBinders [⟨"x", .int⟩]) = .ok .bool := by decide
  have herror : squareIsZero.eval atTwoTo62.get? = .error .overflow := by decide +kernel
  have hfits : ∀ x ty, Context.ofBinders [⟨"x", .int⟩] x = some ty →
      ∃ v, atTwoTo62.get? x = some v ∧ v.ty = ty := by
    intro x ty hx
    obtain ⟨b, hb, rfl, rfl⟩ := Context.exists_of_ofBinders hx
    obtain rfl := List.mem_singleton.1 hb
    exact ⟨.int 4611686018427387904, rfl, rfl⟩
  obtain ⟨w, -, -, ⟨v, hv, -⟩ | ⟨-, hsubterm⟩⟩ := eval_of_sortOf hsort hfits
  · rw [herror] at hv
    cases hv
  · exact ⟨hsort, herror, hsubterm⟩

end Term

end InvariantSearch
