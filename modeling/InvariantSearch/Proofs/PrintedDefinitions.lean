import InvariantSearch.Problem.Command
import InvariantSearch.Proofs.Printing
import InvariantSearch.Proofs.Typing
import InvariantSearch.Term.Eval
import InvariantSearch.Term.Printer

/-!
# Reading printed definitions

A definition that is printed is read as one command that defines the same function
(`parseProblem_render`). The body that is read may be another term: a negated literal is read as
one literal, and so is a literal that is negated many times. It has the same value, or the same
error, under every assignment (`Term.ReadsAs`). The least integer is printed like the others, but
its absolute value is not a literal (`Term.int?_ofInt`), so it must not occur.

What is printed is legible (`Sexp.Legible`) if the names are: a name is an identifier, or has a
character for which it is put between bars, and no bars (`IsName`).
-/

namespace InvariantSearch

namespace Term

mutual

/-- Whether the literal occurs in the term. -/
def hasLiteral (i : Int64) : Term → Bool
  | .int j => i = j
  | .bool _ | .id _ => false
  | .app _ args | .nary _ args => anyHasLiteral i args
  | .unary _ t => hasLiteral i t
  | .binary _ s t | .arith _ s t | .compare _ s t => hasLiteral i s || hasLiteral i t
  | .ite c t e => hasLiteral i c || hasLiteral i t || hasLiteral i e

/-- Whether the literal occurs in one of the terms. -/
def anyHasLiteral (i : Int64) : List Term → Bool
  | [] => false
  | t :: ts => hasLiteral i t || anyHasLiteral i ts

end

theorem anyHasLiteral_eq (i : Int64) (ts : List Term) :
    anyHasLiteral i ts = ts.any (hasLiteral i) := by
  induction ts with
  | nil => rfl
  | cons t ts ih => rw [anyHasLiteral, ih, List.any_cons]

/-! ## Literals -/

theorem int?_app_of_ne {head : String} (h : head ≠ "-") (args : List Sexp) :
    (Sexp.app head args).int? = none := by
  rcases args with _ | ⟨e, _ | ⟨e', args⟩⟩
  · rfl
  · have hne : ¬(Sexp.symbol head).symbol? = some "-" := fun heq => h (Option.some.inj heq)
    rw [Sexp.app, Sexp.int?, if_neg hne]
  · rfl

theorem int?_minus (e : Sexp) :
    (Sexp.app "-" [e]).int? = e.int?.bind fun i => fitWord? (-i.toInt) := by
  have heq : (Sexp.symbol "-").symbol? = some "-" := rfl
  rw [Sexp.app, Sexp.int?, if_pos heq]

theorem int?_numeral (i : Int64) : (Sexp.numeral (UInt64.ofNat i.toInt.natAbs)).int? =
    fitWord? i.toInt.natAbs := by
  have hlt : i.toInt.natAbs < UInt64.size := by
    have hle := i.le_toInt
    have hlt := i.toInt_lt
    have hsize : UInt64.size = 18446744073709551616 := rfl
    omega
  rw [Sexp.numeral, Sexp.int?, UInt64.toNat_ofNat_of_lt' hlt]

/-- A literal is read back from what is written for it, unless it is the least one. -/
theorem int?_ofInt {i : Int64} (h : i ≠ Int64.minValue) : (Sexp.ofInt i).int? = some i := by
  have hmin : i.toInt ≠ -9223372036854775808 := fun heq => h (Int64.toInt_inj.1 (heq.trans rfl))
  have hle := i.le_toInt
  have hlt := i.toInt_lt
  obtain ⟨w, hw⟩ : ∃ w, fitWord? i.toInt.natAbs = some w := by
    cases hw : fitWord? (i.toInt.natAbs : Int) with
    | none =>
      rw [fitWord?_eq_none_iff] at hw
      omega
    | some w => exact ⟨w, rfl⟩
  have hvalue := fitWord?_eq_some_iff.1 hw
  rw [Sexp.ofInt]
  split
  next hneg =>
    rw [Int64.lt_iff_toInt_lt] at hneg
    have hzero : (0 : Int64).toInt = 0 := rfl
    rw [int?_minus, int?_numeral, hw, Option.bind_some, fitWord?_eq_some_iff, hvalue]
    omega
  next hneg =>
    rw [Int64.lt_iff_toInt_lt] at hneg
    have hzero : (0 : Int64).toInt = 0 := rfl
    rw [int?_numeral, fitWord?_eq_some_iff]
    omega

/-- A term that reads as a literal has its value. -/
theorem eval_of_int? {sig : Signature} {ctx : Context} (hsig : ∀ f, sig.find? f = none) {t : Term}
    {ty : Ty} (h : HasTy sig ctx t ty) {i : Int64} (hi : t.toSexp.int? = some i)
    (env : String → Option Value) : t.eval env = .ok (.int i) := by
  induction h generalizing i with
  | bool b => cases hi
  | int j =>
    by_cases hmin : j = Int64.minValue
    · subst hmin
      have hnone : (Sexp.ofInt Int64.minValue).int? = none := by decide
      rw [toSexp, hnone] at hi
      cases hi
    · rw [toSexp, int?_ofInt hmin] at hi
      rw [Option.some.inj hi, eval]
  | id hx => cases hi
  | app hf =>
    rw [hsig] at hf
    cases hf
  | not ht _ => simp [toSexp, UnaryOp.symbol, int?_app_of_ne] at hi
  | neg ht ih =>
    rw [toSexp, UnaryOp.symbol, int?_minus] at hi
    obtain ⟨j, hj, hfit⟩ := Option.bind_eq_some_iff.1 hi
    rw [eval, ih hj]
    simp [bind, Except.bind, Value.asInt, Value.ofInt, hfit]
  | equals hs ht _ _ | implies hs ht _ _ =>
    simp [toSexp, BinaryOp.symbol, int?_app_of_ne] at hi
  | @nary op ts ne ht _ => cases op <;> simp [toSexp, NaryOp.symbol, int?_app_of_ne] at hi
  | @arith op s t hs ht _ _ => cases hi
  | @compare rel s t hs ht _ _ => cases hi
  | ite hc ht he _ _ _ => cases hi

/-! ## Terms -/

/-- The terms have the same value, or the same error, under every assignment. -/
def SameValue (s t : Term) : Prop := ∀ env, s.eval env = t.eval env

section Congruence

variable {s s' t t' c c' : Term}

theorem SameValue.unary (op : UnaryOp) (h : SameValue t' t) :
    SameValue (.unary op t') (.unary op t) := by
  intro env
  cases op <;> simp only [eval, h env]

theorem SameValue.binary (op : BinaryOp) (hs : SameValue s' s) (ht : SameValue t' t) :
    SameValue (.binary op s' t') (.binary op s t) := by
  intro env
  cases op <;> simp only [eval, hs env, ht env]

theorem SameValue.nary (op : NaryOp) {ts ts' : List Term} (h : List.Forall₂ SameValue ts' ts) :
    SameValue (.nary op ts') (.nary op ts) := by
  intro env
  have hresults : ts'.map (eval env) = ts.map (eval env) := by
    rw [← List.forall₂_eq_eq_eq, List.forall₂_map_left_iff, List.forall₂_map_right_iff]
    exact h.imp fun _ _ hsame => hsame env
  rw [eval_nary, eval_nary, hresults]

theorem SameValue.arith (op : ArithOp) (hs : SameValue s' s) (ht : SameValue t' t) :
    SameValue (.arith op s' t') (.arith op s t) := by
  intro env
  simp only [eval, hs env, ht env]

theorem SameValue.compare (rel : Comparison) (hs : SameValue s' s) (ht : SameValue t' t) :
    SameValue (.compare rel s' t') (.compare rel s t) := by
  intro env
  simp only [eval, hs env, ht env]

theorem SameValue.ite (hc : SameValue c' c) (hs : SameValue s' s) (ht : SameValue t' t) :
    SameValue (.ite c' s' t') (.ite c s t) := by
  intro env
  simp only [eval, hc env, hs env, ht env]

end Congruence

theorem ofSexp_app {head : String} {args : List Sexp} {t : Term} {ts : List Term}
    (hint : (Sexp.app head args).int? = none) (hargs : ofSexps args = .ok (t :: ts)) :
    ofSexp (.app head args) = ofOperands head t ts := by
  rw [Sexp.app, Sexp.symbol] at hint ⊢
  rw [ofSexp, hint, hargs]
  rfl

/-- A term that is written as a literal is read as this literal. -/
theorem ofSexp_of_int? {head : String} {args : List Sexp} {i : Int64}
    (hint : (Sexp.app head args).int? = some i) : ofSexp (.app head args) = .ok (.int i) := by
  rw [Sexp.app, Sexp.symbol] at hint ⊢
  rw [ofSexp, hint]

theorem ofSexp_numeral {n : UInt64} {i : Int64} (hint : (Sexp.numeral n).int? = some i) :
    ofSexp (.numeral n) = .ok (.int i) := by
  have hfit : fitWord? n.toNat = some i := by rwa [Sexp.numeral, Sexp.int?] at hint
  rw [Sexp.numeral, ofSexp, ofNumeral, hfit, Option.elim_some]

theorem ofSexp_ofInt {i : Int64} (h : i ≠ Int64.minValue) : ofSexp (.ofInt i) = .ok (.int i) := by
  have hint := int?_ofInt h
  rw [Sexp.ofInt] at hint ⊢
  split at hint
  next hneg =>
    rw [if_pos hneg]
    exact ofSexp_of_int? hint
  next hneg =>
    rw [if_neg hneg]
    exact ofSexp_numeral hint

theorem ofSexps_eq_ok {es : List Sexp} {ts : List Term}
    (h : List.Forall₂ (fun e t => ofSexp e = .ok t) es ts) : ofSexps es = .ok ts := by
  induction h with
  | nil => rfl
  | cons h _ ih =>
    rw [ofSexps, h, ih]
    rfl

/-- The term is read from the s-expression, up to its value. -/
def ReadsAs (e : Sexp) (t : Term) : Prop := ∃ t', ofSexp e = .ok t' ∧ SameValue t' t

/-- Both operands of an operator are read back. -/
theorem readsAs_app {head : String} {f : Term → Term → Term} {s t : Term}
    (hf : ∀ s t, ofOperands head s [t] = .ok (f s t))
    (hcongr : ∀ {s' t'}, SameValue s' s → SameValue t' t → SameValue (f s' t') (f s t))
    (hs : ReadsAs s.toSexp s) (ht : ReadsAs t.toSexp t) :
    ReadsAs (.app head [s.toSexp, t.toSexp]) (f s t) := by
  obtain ⟨s', hs', hs''⟩ := hs
  obtain ⟨t', ht', ht''⟩ := ht
  refine ⟨f s' t', ?_, hcongr hs'' ht''⟩
  rw [ofSexp_app rfl (ofSexps_eq_ok (.cons hs' (.cons ht' .nil))), hf]

/-- A negated literal is read as a literal, and any other negation as one. -/
theorem readsAs_neg {sig : Signature} {ctx : Context} (hsig : ∀ f, sig.find? f = none) {t : Term}
    (ht : HasTy sig ctx t .int) (h : ReadsAs t.toSexp t) :
    ReadsAs (toSexp (.unary .neg t)) (.unary .neg t) := by
  obtain ⟨t', ht', hvalue⟩ := h
  cases hint : (toSexp (.unary .neg t)).int? with
  | some i =>
    refine ⟨.int i, ofSexp_of_int? hint, fun env => ?_⟩
    rw [eval_of_int? hsig (.neg ht) hint, eval]
  | none =>
    refine ⟨t'.neg, ?_, hvalue.unary .neg⟩
    rw [toSexp, ofSexp_app hint (ofSexps_eq_ok (.cons ht' .nil))]
    rfl

theorem exists_ofSexps {ts : List Term} (h : ∀ t ∈ ts, ReadsAs t.toSexp t) :
    ∃ ts', ofSexps (toSexps ts) = .ok ts' ∧ List.Forall₂ SameValue ts' ts := by
  induction ts with
  | nil => exact ⟨[], rfl, .nil⟩
  | cons t ts ih =>
    rw [List.forall_mem_cons] at h
    obtain ⟨t', ht', hvalue⟩ := h.1
    obtain ⟨ts', hts', hvalues⟩ := ih h.2
    refine ⟨t' :: ts', ?_, .cons hvalue hvalues⟩
    rw [toSexps, ofSexps, ht', hts']
    rfl

theorem readsAs_nary {op : NaryOp} {ts : List Term} (ne : ts ≠ [])
    (h : ∀ t ∈ ts, ReadsAs t.toSexp t) : ReadsAs (toSexp (.nary op ts)) (.nary op ts) := by
  have hint : (Sexp.app op.symbol (toSexps ts)).int? = none :=
    int?_app_of_ne (by cases op <;> decide) _
  obtain ⟨ts', hts', hvalues⟩ := exists_ofSexps h
  refine ⟨.nary op ts', ?_, .nary op hvalues⟩
  cases hvalues with
  | nil => exact absurd rfl ne
  | cons _ _ =>
    rw [toSexp, ofSexp_app hint hts']
    cases op <;> rfl

/-- A term without calls and without the least literal is read back, up to its value, from what is
written for it. Variables must not be named like the truth values. -/
theorem readsAs_toSexp {sig : Signature} {ctx : Context} (hsig : ∀ f, sig.find? f = none)
    (hctx : ctx "true" = none ∧ ctx "false" = none) {t : Term} {ty : Ty} (h : HasTy sig ctx t ty)
    (hliteral : t.hasLiteral Int64.minValue = false) : ReadsAs t.toSexp t := by
  induction h with
  | bool b => exact ⟨.bool b, by cases b <;> rfl, fun _ => rfl⟩
  | int i =>
    have hi : i ≠ Int64.minValue := fun heq => by simp [hasLiteral, heq] at hliteral
    exact ⟨.int i, ofSexp_ofInt hi, fun _ => rfl⟩
  | @id x ty hx =>
    refine ⟨.id x, ?_, fun _ => rfl⟩
    have htrue : x ≠ "true" := fun heq => by simp [← heq, hx] at hctx
    have hfalse : x ≠ "false" := fun heq => by simp [← heq, hx] at hctx
    rw [toSexp, Sexp.symbol, ofSexp]
    · exact htrue
    · exact hfalse
  | app hf =>
    rw [hsig] at hf
    cases hf
  | @not t ht ih =>
    obtain ⟨t', ht', hvalue⟩ := ih hliteral
    refine ⟨t'.not, ?_, hvalue.unary .not⟩
    rw [toSexp, ofSexp_app (int?_app_of_ne (by decide) _) (ofSexps_eq_ok (.cons ht' .nil))]
    rfl
  | neg ht ih => exact readsAs_neg hsig ht (ih hliteral)
  | equals _ _ ihs iht =>
    rw [hasLiteral, Bool.or_eq_false_iff] at hliteral
    exact readsAs_app (fun _ _ => rfl) (.binary .equals) (ihs hliteral.1) (iht hliteral.2)
  | implies _ _ ihs iht =>
    rw [hasLiteral, Bool.or_eq_false_iff] at hliteral
    exact readsAs_app (fun _ _ => rfl) (.binary .implies) (ihs hliteral.1) (iht hliteral.2)
  | nary ne _ ih =>
    rw [hasLiteral, anyHasLiteral_eq, List.any_eq_false] at hliteral
    exact readsAs_nary ne fun t ht => ih t ht (Bool.eq_false_iff.2 (hliteral t ht))
  | @arith op _ _ _ _ ihs iht =>
    rw [hasLiteral, Bool.or_eq_false_iff] at hliteral
    exact readsAs_app (fun _ _ => by cases op <;> rfl) (.arith op) (ihs hliteral.1)
      (iht hliteral.2)
  | @compare rel _ _ _ _ ihs iht =>
    rw [hasLiteral, Bool.or_eq_false_iff] at hliteral
    exact readsAs_app (fun _ _ => by cases rel <;> rfl) (.compare rel) (ihs hliteral.1)
      (iht hliteral.2)
  | ite _ _ _ ihc iht ihe =>
    rw [hasLiteral, Bool.or_eq_false_iff, Bool.or_eq_false_iff] at hliteral
    obtain ⟨c', hc', hc''⟩ := ihc hliteral.1.1
    obtain ⟨t', ht', ht''⟩ := iht hliteral.1.2
    obtain ⟨e', he', he''⟩ := ihe hliteral.2
    refine ⟨.ite c' t' e', ?_, .ite hc'' ht'' he''⟩
    rw [toSexp, ofSexp_app rfl (ofSexps_eq_ok (.cons hc' (.cons ht' (.cons he' .nil))))]
    rfl

end Term

/-! ## What is written -/

namespace Sexp

/-- The tree has legible symbols alone and no comments. -/
def Legible (e : Sexp) : Prop :=
  ∀ tok ∈ e.tokens, Reader.Readable tok ∧ ∀ s, tok ≠ .comment s

theorem legible_symbol {s : String} (h : isLegible s = true) : (symbol s).Legible := by
  intro tok htok
  obtain rfl := List.mem_singleton.1 htok
  exact ⟨h, fun _ heq => by cases heq⟩

theorem legible_numeral (n : UInt64) : (numeral n).Legible := by
  intro tok htok
  obtain rfl := List.mem_singleton.1 htok
  exact ⟨trivial, fun _ heq => by cases heq⟩

theorem mem_tokensAll {tok : Token} {xs : List Sexp} :
    tok ∈ tokensAll xs ↔ ∃ x ∈ xs, tok ∈ x.tokens := by
  induction xs with
  | nil => simp [tokensAll]
  | cons x xs ih => simp [tokensAll, ih]

theorem legible_list {xs : List Sexp} (h : ∀ x ∈ xs, x.Legible) : (list xs).Legible := by
  intro tok htok
  rw [tokens, List.mem_cons, List.mem_append, List.mem_singleton, mem_tokensAll] at htok
  rcases htok with rfl | ⟨x, hx, htok⟩ | rfl
  · exact ⟨trivial, fun _ heq => by cases heq⟩
  · exact h x hx tok htok
  · exact ⟨trivial, fun _ heq => by cases heq⟩

theorem legible_app {head : String} {args : List Sexp} (hhead : isLegible head = true)
    (hargs : ∀ x ∈ args, x.Legible) : (app head args).Legible :=
  legible_list fun x hx => (List.mem_cons.1 hx).elim
    (fun heq => heq ▸ legible_symbol hhead) (hargs x)

theorem legible_app_pair {head : String} {e e' : Sexp} (hhead : isLegible head = true)
    (he : e.Legible) (he' : e'.Legible) : (app head [e, e']).Legible := by
  refine legible_app hhead fun x hx => ?_
  rcases List.mem_pair.1 hx with rfl | rfl
  · exact he
  · exact he'

theorem legible_ofInt (i : Int64) : (ofInt i).Legible := by
  rw [ofInt]
  split
  next => exact legible_app (by decide) fun x hx => List.mem_singleton.1 hx ▸ legible_numeral _
  next => exact legible_numeral _

theorem Legible.parse_render {e : Sexp} (h : e.Legible) : parse e.render = .ok e :=
  parse_eq_ok_iff.2 ⟨[], Reader.reads_render_empty fun tok htok => (h tok htok).1⟩

mutual

/-- Without comments nothing is dropped. -/
theorem withoutComments_eq : (e : Sexp) → (∀ tok ∈ e.tokens, ∀ s, tok ≠ .comment s) →
    e.withoutComments = some e
  | .atom a, _ => rfl
  | .comment s, h => absurd rfl (h (.comment s) (List.mem_singleton_self _) s)
  | .list xs, h => by
    rw [withoutComments, dropComments_eq xs fun tok htok => h tok (by simp [tokens, htok])]

theorem dropComments_eq : (xs : List Sexp) → (∀ tok ∈ tokensAll xs, ∀ s, tok ≠ .comment s) →
    dropComments xs = xs
  | [], _ => rfl
  | x :: xs, h => by
    rw [dropComments, withoutComments_eq x fun tok htok => h tok (List.mem_append_left _ htok),
      dropComments_eq xs fun tok htok => h tok (List.mem_append_right _ htok)]
    rfl

end

end Sexp

open Sexp

theorem Ty.legible_toSexp (ty : Ty) : ty.toSexp.Legible := by
  refine legible_symbol ?_
  cases ty <;> decide

theorem Binder.legible_toSexp {b : Binder} (h : isLegible b.name = true) : b.toSexp.Legible := by
  refine legible_list fun x hx => ?_
  rcases List.mem_pair.1 hx with rfl | rfl
  · exact legible_symbol h
  · exact b.ty.legible_toSexp

/-- What is written for a term without calls is legible if its variables are. -/
theorem Term.legible_toSexp {sig : Signature} {ctx : Context} (hsig : ∀ f, sig.find? f = none)
    (hctx : ∀ x ty, ctx x = some ty → isLegible x = true) {t : Term} {ty : Ty}
    (h : HasTy sig ctx t ty) : t.toSexp.Legible := by
  induction h with
  | bool b =>
    refine legible_symbol ?_
    cases b <;> decide
  | int i => exact legible_ofInt i
  | id hx => exact legible_symbol (hctx _ _ hx)
  | app hf =>
    rw [hsig] at hf
    cases hf
  | not ht ih => exact legible_app (by decide) fun x hx => List.mem_singleton.1 hx ▸ ih
  | neg ht ih => exact legible_app (by decide) fun x hx => List.mem_singleton.1 hx ▸ ih
  | equals _ _ ihs iht | implies _ _ ihs iht => exact legible_app_pair (by decide) ihs iht
  | nary ne hts ih =>
    rename_i op ts
    rw [toSexp, toSexps_eq_map]
    refine legible_app (by cases op <;> decide) fun x hx => ?_
    obtain ⟨t, ht, rfl⟩ := List.mem_map.1 hx
    exact ih t ht
  | @arith op _ _ _ _ ihs iht => exact legible_app_pair (by cases op <;> decide) ihs iht
  | @compare rel _ _ _ _ ihs iht => exact legible_app_pair (by cases rel <;> decide) ihs iht
  | ite hc ht he ihc iht ihe =>
    refine legible_app (by decide) fun x hx => ?_
    rw [List.mem_cons, List.mem_pair] at hx
    rcases hx with rfl | rfl | rfl
    · exact ihc
    · exact iht
    · exact ihe

/-! ## Definitions -/

theorem Ty.ofSexp_toSexp (ty : Ty) : Ty.ofSexp ty.toSexp = .ok ty := by
  cases ty <;> rfl

theorem Binder.ofSexp_toSexp (b : Binder) : Binder.ofSexp b.toSexp = .ok b := by
  show (do return ⟨b.name, ← Ty.ofSexp b.ty.toSexp⟩ : Except Malformed Binder) = .ok b
  rw [Ty.ofSexp_toSexp]
  rfl

theorem Binder.listOfSexp_toSexp (bs : List Binder) :
    Binder.listOfSexp (.list (bs.map Binder.toSexp)) = .ok bs := by
  show (bs.map Binder.toSexp).mapM Binder.ofSexp = .ok bs
  induction bs with
  | nil => rfl
  | cons b bs ih =>
    rw [List.map_cons, List.mapM_cons, Binder.ofSexp_toSexp, ih]
    rfl

/-- The text can be written as a name: it is an identifier, or has a character for which it is put
between bars, and no bars. -/
def IsName (s : String) : Prop :=
  isBare s.toList = true ∨ isMarked s = true ∧ '|' ∉ s.toList

theorem IsName.isLegible {s : String} (h : IsName s) : isLegible s = true := by
  have hbar : '|' ∉ s.toList := by
    rcases h with h | h
    · exact fun hbar => absurd (isSymbolChar_of_isBare h '|' hbar) (by decide)
    · exact h.2
  rw [Sexp.isLegible]
  split
  next => simpa using hbar
  next hmarked =>
    have hbare := h.resolve_right fun h => hmarked h.1
    rw [hbare, Bool.or_true]

namespace FunDef

/-- What is written for a definition without calls is legible if its names are. -/
theorem legible_toSexp {d : FunDef} (h : Term.HasTy [] (.ofBinders d.params) d.body d.ret)
    (hname : isLegible d.name = true) (hparams : ∀ b ∈ d.params, isLegible b.name = true) :
    d.toSexp.Legible := by
  refine legible_app (by decide) fun x hx => ?_
  rw [List.mem_cons, List.mem_cons, List.mem_pair] at hx
  rcases hx with rfl | rfl | rfl | rfl
  · exact legible_symbol hname
  · refine legible_list fun x hx => ?_
    obtain ⟨b, hb, rfl⟩ := List.mem_map.1 hx
    exact Binder.legible_toSexp (hparams b hb)
  · exact d.ret.legible_toSexp
  · refine Term.legible_toSexp (fun _ => rfl) (fun x ty hx => ?_) h
    obtain ⟨b, hb, rfl, -⟩ := Context.exists_of_ofBinders hx
    exact hparams b hb

/-- The command is read back as far as the body is. -/
theorem ofSexp_toSexp {d : FunDef} {body : Term} (h : Term.ofSexp d.body.toSexp = .ok body) :
    Command.ofSexp d.toSexp = .ok (.defineFun { d with body }) := by
  have hargs : Command.ofSexp d.toSexp = Command.ofArgs "define-fun"
      [.symbol d.name, .list (d.params.map Binder.toSexp), d.ret.toSexp, d.body.toSexp] := rfl
  rw [hargs, Command.ofArgs, Binder.listOfSexp_toSexp, Ty.ofSexp_toSexp, h]
  rfl

end FunDef

/-- A text that holds one command is read as it. -/
theorem parseProblem_of_reads {text : String} {e : Sexp} {c : Command}
    (hreads : Reader.reads false text.toList .between .empty = some [e])
    (hcomments : e.withoutComments = some e) (hc : Command.ofSexp e = .ok c) :
    ∃ span, parseProblem text = .ok [(span, c)] := by
  obtain ⟨spanned, hparse, hmap⟩ := exists_parseSpanned hreads
  obtain ⟨⟨span, e'⟩, rfl, rfl⟩ := List.map_eq_singleton_iff.1 hmap
  have hspanned : Command.ofSpanned span e' = .ok (some (span, c)) := by
    rw [Command.ofSpanned, hcomments]
    simp only [hc]
  refine ⟨span, ?_⟩
  rw [parseProblem, hparse]
  simp only [List.mapM_cons, List.mapM_nil, hspanned]
  rfl

/-- A printed definition is read as one command, which defines the same function: the body that is
read has the same value, or the same error, under every assignment. -/
theorem parseProblem_render {d : FunDef}
    (typed : d.body.sortOf [] (.ofBinders d.params) = .ok d.ret)
    (hliteral : d.body.hasLiteral Int64.minValue = false) (hname : IsName d.name)
    (hparams : ∀ b ∈ d.params, IsName b.name ∧ b.name ≠ "true" ∧ b.name ≠ "false") :
    ∃ span body, parseProblem d.render = .ok [(span, .defineFun { d with body })] ∧
      ∀ env, body.eval env = d.body.eval env := by
  have htyped : Term.HasTy [] (.ofBinders d.params) d.body d.ret := Term.sortOf_eq_ok_iff.1 typed
  have hlegible : d.toSexp.Legible :=
    d.legible_toSexp htyped hname.isLegible fun b hb => (hparams b hb).1.isLegible
  have hcontext : Context.ofBinders d.params "true" = none ∧
      Context.ofBinders d.params "false" = none :=
    ⟨Context.ofBinders_eq_none fun b hb => (hparams b hb).2.1,
      Context.ofBinders_eq_none fun b hb => (hparams b hb).2.2⟩
  obtain ⟨body, hbody, hvalue⟩ := Term.readsAs_toSexp (fun _ => rfl) hcontext htyped hliteral
  obtain ⟨span, hparse⟩ := parseProblem_of_reads
    (Reader.reads_render_empty fun tok htok => (hlegible tok htok).1)
    (withoutComments_eq _ fun tok htok => (hlegible tok htok).2) (FunDef.ofSexp_toSexp hbody)
  exact ⟨span, body, hparse, hvalue⟩

/-- A definition with a quoted name, a primed variable and a literal that is negated twice. -/
theorem parseProblem_render_step :
    let d : FunDef := ⟨"next x", [⟨"x", .int⟩, ⟨"x'", .int⟩], .bool,
      (Term.id "x'").equals (.arith .add (.id "x") (Term.int (-1)).neg)⟩
    ∃ span body, parseProblem d.render = .ok [(span, .defineFun { d with body })] ∧
      ∀ env, body.eval env = d.body.eval env :=
  parseProblem_render (by rfl) (by decide) (.inr (by decide)) fun b hb => by
    rcases List.mem_pair.1 hb with rfl | rfl
    · exact ⟨.inl (by decide), by decide, by decide⟩
    · exact ⟨.inr (by decide), by decide, by decide⟩

end InvariantSearch
