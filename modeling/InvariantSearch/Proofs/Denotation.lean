import InvariantSearch.Proofs.Meaning
import InvariantSearch.Proofs.TermReading

/-!
# The meaning of what is read

`Sexp.value` gives s-expressions their values in SMT-LIB over the unbounded integers, without
reading them as terms: an operator acts on the values of all its operands (`Operator.value`).

Reading folds the operands of `+`, `-` and `*` from the left and those of `=>` from the right,
writes `distinct` with `not`, and takes minus signs before a literal into the literal. None of this
changes the value (`Sexp.exists_value_of_ofSexp`), as long as `+`, `*` and `=>` have two operands or
more (`Sexp.Plural`). With one operand SMT-LIB gives them no value.
-/

namespace InvariantSearch

variable {I : Interpretation} {ρ : Valuation}

/-- Folds a value and the values after it from the right, where the last one is the first to be
taken. -/
def foldRight (f : Datum → Datum → Option Datum) : Datum → List Datum → Option Datum
  | v, [] => some v
  | v, w :: ws => (foldRight f w ws).bind (f v)

/-- The value of an operator at the values of its operands, for the numbers of operands that are
read. -/
def Operator.value (I : Interpretation) : Operator → List Datum → Option Datum
  | .not, [v] => UnaryOp.not.exact v
  | .equals, [v, w] => BinaryOp.equals.exact v w
  | .distinct, [v, w] => if v.ty = w.ty then some (.bool (v ≠ w)) else none
  | .implies, v :: w :: vs => foldRight BinaryOp.implies.exact v (w :: vs)
  | .ite, [b, v, w] => b.choose v w
  | .arith .sub, [v] => UnaryOp.neg.exact v
  | .arith op, v :: w :: vs => (w :: vs).foldlM op.exact v
  | .nary op, vs => op.exact vs
  | .compare rel, [v, w] => rel.exact v w
  | .call f, vs => I f vs
  | _, _ => none

theorem Operator.value_arith (op : ArithOp) (v w : Datum) (vs : List Datum) :
    (Operator.arith op).value I (v :: w :: vs) = (w :: vs).foldlM op.exact v := by
  cases op <;> rfl

namespace Sexp

mutual

/-- The value of an s-expression. -/
def value (I : Interpretation) (ρ : Valuation) : Sexp → Option Datum
  | .atom (.numeral n) => some (.int n.toNat)
  | .atom (.symbol "true") => some (.bool true)
  | .atom (.symbol "false") => some (.bool false)
  | .atom (.symbol x) => ρ x
  | .list (.atom (.symbol head) :: args) =>
    (values I ρ args).bind ((Operator.ofSymbol head).value I)
  | _ => none

/-- The values of all s-expressions of a list. -/
def values (I : Interpretation) (ρ : Valuation) : List Sexp → Option (List Datum)
  | [] => some []
  | e :: es => (value I ρ e).bind fun v => (values I ρ es).map (v :: ·)

end

theorem value_app (head : String) (args : List Sexp) :
    (app head args).value I ρ = (values I ρ args).bind ((Operator.ofSymbol head).value I) := by
  rw [app, symbol, value]

/-- Wherever `+`, `*` or `=>` stand, they have at least two operands. -/
def Plural : Sexp → Prop :=
  EveryApp fun head args => head ∈ ["+", "*", "=>"] → 2 ≤ args.length

theorem mem_of_lone? {head : String} (h : (Operator.ofSymbol head).lone?.isSome) :
    head ∈ ["+", "*", "=>"] := by
  unfold Operator.ofSymbol at h
  split at h <;> simp_all [Operator.lone?]

end Sexp

namespace Term

/-- A chain folds the values of its terms from the left. -/
theorem meaning_arithChain (op : ArithOp) (t : Term) (ts : List Term) :
    (arithChain op t ts).meaning I ρ =
      (t.meaning I ρ).bind fun v => (meanings I ρ ts).bind (List.foldlM op.exact v) := by
  induction ts generalizing t with
  | nil => simp [arithChain, meanings]
  | cons u us ih =>
    have hchain : arithChain op t (u :: us) = arithChain op (.arith op t u) us := rfl
    rw [hchain, ih, meanings, meaning]
    cases t.meaning I ρ <;> cases u.meaning I ρ <;> cases meanings I ρ us <;> simp

/-- A chain of implications folds the values of its terms from the right. -/
theorem meaning_impliesChain (t : Term) (ts : List Term) :
    (impliesChain t ts).meaning I ρ =
      (t.meaning I ρ).bind fun v =>
        (meanings I ρ ts).bind (foldRight BinaryOp.implies.exact v) := by
  induction ts generalizing t with
  | nil => simp [impliesChain, meanings, foldRight]
  | cons u us ih =>
    rw [impliesChain, implies, meaning, ih, meanings]
    cases t.meaning I ρ <;> cases u.meaning I ρ <;> cases meanings I ρ us <;> simp [foldRight]

theorem exact_distinct (v w : Datum) : (BinaryOp.equals.exact v w).bind UnaryOp.not.exact =
    if v.ty = w.ty then some (.bool (v ≠ w)) else none := by
  rw [BinaryOp.exact]
  split <;> simp [UnaryOp.exact]

theorem meanings_nil_bind {α : Type} (f : List Datum → Option α) :
    (meanings I ρ []).bind f = f [] := rfl

theorem meanings_cons_bind {α : Type} (t : Term) (ts : List Term) (f : List Datum → Option α) :
    (meanings I ρ (t :: ts)).bind f =
      (t.meaning I ρ).bind fun v => (meanings I ρ ts).bind fun vs => f (v :: vs) := by
  rw [meanings, Option.bind_assoc]
  simp only [Option.bind_map, Function.comp_def]

/-- What operands are joined to has the value of the operator at their values. -/
theorem Joins.meaning_eq {op : Operator} {ts : List Term} {t : Term} (h : Joins op ts t)
    (plural : op.lone?.isSome → 2 ≤ ts.length) :
    t.meaning I ρ = (meanings I ρ ts).bind (op.value I) := by
  cases h with
  | not t | neg t =>
    simp only [meanings_cons_bind, meanings_nil_bind]
    rfl
  | lone h t => simp [h] at plural
  | arith op t u us => simp only [meaning_arithChain, meanings_cons_bind, Operator.value_arith]
  | implies t u us =>
    simp only [meaning_impliesChain, meanings_cons_bind]
    rfl
  | equals t u | compare rel t u =>
    simp only [meanings_cons_bind, meanings_nil_bind]
    rfl
  | distinct t u =>
    simp only [meanings_cons_bind, meanings_nil_bind, Operator.value, ← exact_distinct]
    simp only [Term.not, Term.equals, meaning, Option.bind_assoc]
  | ite c t e =>
    simp only [meanings_cons_bind, meanings_nil_bind]
    rfl
  | nary op t ts | call f t ts => rfl

end Term

namespace Sexp

theorem value_symbol {x : String} (ne_true : x ≠ "true") (ne_false : x ≠ "false") :
    (symbol x).value I ρ = ρ x := by
  rw [symbol, value]
  · exact ne_true
  · exact ne_false

theorem values_eq_meanings {es : List Sexp} {ts : List Term}
    (h : List.Forall₂ (fun e t => value I ρ e = t.meaning I ρ) es ts) :
    values I ρ es = Term.meanings I ρ ts := by
  induction h with
  | nil => rfl
  | cons h _ ih => rw [values, Term.meanings, h, ih]

/-- A tree and the term that is read from it have the same value, if they have one. -/
theorem readingCases_value :
    Term.ReadingCases fun e t => Plural e → e.value I ρ = t.meaning I ρ where
  numeral {n i} value _ := by rw [numeral, Sexp.value, Term.meaning, value]
  minus {e i j} value operand plural := by
    have he := operand ((everyApp_app_iff.1 plural).2 e List.mem_cons_self)
    rw [value_app, values, values, he, Term.meaning, Term.meaning, value]
    rfl
  true_ _ := by rw [symbol, value, Term.meaning]
  false_ _ := by rw [symbol, value, Term.meaning]
  name ne_true ne_false _ := by rw [value_symbol ne_true ne_false, Term.meaning]
  app operands joins plural := by
    obtain ⟨hlength, hplural⟩ := everyApp_app_iff.1 plural
    have hargs := forall₂_of_mem (fun e he t _ h => h.2 (hplural e he)) operands
    rw [value_app, values_eq_meanings hargs, joins.meaning_eq fun lone => ?_]
    exact operands.length_eq ▸ hlength (mem_of_lone? lone)

/-- A well-sorted term has the value of the tree that it is read from, under every interpretation of
the functions and every valuation of the variables in scope. -/
theorem exists_value_of_ofSexp {sig : Signature} {ctx : Context} {e : Sexp} {t : Term} {ty : Ty}
    (plural : Plural e) (read : Term.ofSexp e = .ok t) (sorted : t.sortOf sig ctx = .ok ty)
    (hI : I.Fits sig) (hρ : ρ.Fits ctx) :
    ∃ v, e.value I ρ = some v ∧ t.meaning I ρ = some v ∧ v.ty = ty := by
  obtain ⟨v, hv, hty⟩ := (Term.hasTy_of_sortOf t ty sorted).exists_meaning hI hρ
  exact ⟨v, (readingCases_value.of_ofSexp e t read plural).trans hv, hv, hty⟩

/-- The function `double`, and no other. -/
def doubling : Interpretation
  | "double", [.int n] => some (.int (2 * n))
  | _, _ => none

theorem doubling_fits : doubling.Fits [⟨"double", [.int], .int⟩] := by
  intro f decl vs hf hvs
  obtain ⟨rfl, rfl⟩ : f = "double" ∧ decl = ⟨"double", [.int], .int⟩ := by
    simpa [Signature.find?, eq_comm] using hf
  obtain ⟨v, rfl, hv⟩ := List.map_eq_singleton_iff.1 hvs
  obtain ⟨n, rfl⟩ := Datum.exists_int hv
  exact ⟨.int (2 * n), rfl, rfl⟩

/-- The tree `(=> (< x 3) (distinct (- x 1 (- (- 2))) (double (+ x 1 x))) false)` with `2` for `x`.
-/
theorem exists_value_doubling : ∃ v,
    (app "=>" [app "<" [symbol "x", numeral 3],
      app "distinct" [app "-" [symbol "x", numeral 1, app "-" [app "-" [numeral 2]]],
        app "double" [app "+" [symbol "x", numeral 1, symbol "x"]]],
      symbol "false"]).value doubling (fun _ => some (.int 2)) = some v ∧
    (Term.implies (.compare .lt (.id "x") (.int 3)) (.implies
      (.not (.equals (.arith .sub (.arith .sub (.id "x") (.int 1)) (.int 2))
        (.app "double" [.arith .add (.arith .add (.id "x") (.int 1)) (.id "x")])))
      (.bool false))).meaning doubling (fun _ => some (.int 2)) = some v ∧ v.ty = .bool := by
  have hρ : Valuation.Fits (fun _ => some (.int 2)) (.ofBinders [⟨"x", .int⟩]) := by
    intro x ty hx
    obtain ⟨b, hb, -, rfl⟩ := Context.exists_of_ofBinders hx
    rw [List.mem_singleton.1 hb]
    exact ⟨.int 2, rfl, rfl⟩
  refine exists_value_of_ofSexp ?_ (by rfl) (by rfl) doubling_fits hρ
  simp [Plural, everyApp_app_iff, everyApp_atom, numeral, symbol]

end Sexp

end InvariantSearch
