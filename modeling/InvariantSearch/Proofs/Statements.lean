import InvariantSearch.Proofs.Answers
import InvariantSearch.Proofs.Denotation
import InvariantSearch.Proofs.Queries
import InvariantSearch.Proofs.Refutation

/-!
# What a solver is told

The solver oracle tells its solver options and a logic, declares the variables of a condition and
asserts the negation of its formula (`SmtConfig.commands`). A term that is written has the value of
the term in SMT-LIB (`Term.value_toSexp`), so the commands are true of the values that make the
condition false, and of no others (`Condition.satisfies_commands_iff`). They contradict each other
exactly if the condition is valid (`Condition.valid_iff_not_satisfies`): a solver that replies
`unsat` only to contradictions is right about it.
-/

namespace InvariantSearch

variable {I : Interpretation} {ρ : Valuation}

/-! ## The value of what is written -/

theorem Operator.ofSymbol_arith (op : ArithOp) : ofSymbol op.symbol = .arith op := by
  cases op <;> rfl

theorem Operator.ofSymbol_compare (rel : Comparison) : ofSymbol rel.symbol = .compare rel := by
  cases rel <;> rfl

theorem Operator.ofSymbol_nary (op : NaryOp) : ofSymbol op.symbol = .nary op := by
  cases op <;> rfl

namespace Sexp

theorem value_app_one (head : String) (e : Sexp) : (app head [e]).value I ρ =
    (e.value I ρ).bind fun v => (Operator.ofSymbol head).value I [v] := by
  rw [value_app, values, values]
  cases e.value I ρ <;> rfl

theorem value_app_two (head : String) (e e' : Sexp) : (app head [e, e']).value I ρ =
    (e.value I ρ).bind fun v => (e'.value I ρ).bind fun w =>
      (Operator.ofSymbol head).value I [v, w] := by
  rw [value_app, values, values, values]
  cases e.value I ρ <;> cases e'.value I ρ <;> rfl

theorem value_app_three (head : String) (e e' e'' : Sexp) : (app head [e, e', e'']).value I ρ =
    (e.value I ρ).bind fun u => (e'.value I ρ).bind fun v => (e''.value I ρ).bind fun w =>
      (Operator.ofSymbol head).value I [u, v, w] := by
  rw [value_app, values, values, values, values]
  cases e.value I ρ <;> cases e'.value I ρ <;> cases e''.value I ρ <;> rfl

/-- The least integer is written like the others: over the unbounded integers its absolute value is
a numeral. -/
theorem value_ofInt (i : Int64) : (ofInt i).value I ρ = some (.int i.toInt) := by
  have hmagnitude : (UInt64.ofNat i.toInt.natAbs).toNat = i.toInt.natAbs := by
    have hle := i.le_toInt
    have hlt := i.toInt_lt
    have hsize : UInt64.size = 18446744073709551616 := rfl
    exact UInt64.toNat_ofNat_of_lt' (by omega)
  have hzero : (0 : Int64).toInt = 0 := rfl
  rw [ofInt]
  split
  next hneg =>
    rw [Int64.lt_iff_toInt_lt, hzero] at hneg
    have hvalue : (-(i.toInt.natAbs : Int)) = i.toInt := by omega
    rw [value_app_one, numeral, value, hmagnitude, Option.bind_some]
    exact congrArg (some ∘ Datum.int) hvalue
  next hneg =>
    rw [Int64.lt_iff_toInt_lt, hzero] at hneg
    have hvalue : (i.toInt.natAbs : Int) = i.toInt := by omega
    rw [numeral, value, hmagnitude, hvalue]

theorem symbol_inj {x y : String} : symbol x = symbol y ↔ x = y :=
  ⟨fun h => Atom.symbol.inj (Sexp.atom.inj h), congrArg symbol⟩

theorem app_inj {head head' : String} {args args' : List Sexp} :
    app head args = app head' args' ↔ head = head' ∧ args = args' := by
  rw [app, app, Sexp.list.injEq, List.cons.injEq, symbol_inj]

end Sexp

theorem Ty.toSexp_inj {ty ty' : Ty} : ty.toSexp = ty'.toSexp ↔ ty = ty' := by
  cases ty <;> cases ty' <;> decide

namespace Term

theorem values_toSexps {ts : List Term} (h : ∀ t ∈ ts, t.toSexp.value I ρ = t.meaning I ρ) :
    Sexp.values I ρ (toSexps ts) = meanings I ρ ts := by
  rw [toSexps_eq_map]
  exact Sexp.values_eq_meanings (List.forall₂_map_left_iff.2 (List.forall₂_same.2 h))

/-- A term without calls is written as a tree with its value. Variables must not be named like the
truth values. -/
theorem value_toSexp {ctx : Context} (hctx : ctx "true" = none ∧ ctx "false" = none) {t : Term}
    {ty : Ty} (h : HasTy [] ctx t ty) : t.toSexp.value I ρ = t.meaning I ρ := by
  induction h with
  | bool b => cases b <;> rfl
  | int i => exact Sexp.value_ofInt i
  | @id x ty hx =>
    refine Sexp.value_symbol (fun heq => ?_) fun heq => ?_ <;> simp [heq, hctx] at hx
  | app hf => simp [Signature.find?] at hf
  | not ht ih | neg ht ih =>
    rw [toSexp, Sexp.value_app_one, ih, meaning]
    rfl
  | equals _ _ ihs iht | implies _ _ ihs iht =>
    rw [toSexp, Sexp.value_app_two, ihs, iht, meaning]
    rfl
  | @nary op ts ne ht ih =>
    rw [toSexp, Sexp.value_app, values_toSexps ih, Operator.ofSymbol_nary, meaning]
    rfl
  | @arith op s t hs ht ihs iht =>
    rw [toSexp, Sexp.value_app_two, ihs, iht, Operator.ofSymbol_arith, meaning]
    simp only [Operator.value_arith, List.foldlM_cons, List.foldlM_nil, bind_pure]
  | @compare rel s t hs ht ihs iht =>
    rw [toSexp, Sexp.value_app_two, ihs, iht, Operator.ofSymbol_compare, meaning]
    rfl
  | ite hc ht he ihc iht ihe =>
    rw [toSexp, Sexp.value_app_three, ihc, iht, ihe, meaning]
    rfl

end Term

/-! ## The commands -/

/-- The values satisfy the commands: each constant that is declared has a value of its sort, and
what is asserted is true. Other commands, such as options, do not matter. -/
structure Valuation.Satisfies (ρ : Valuation) (commands : List Sexp) : Prop where
  declared : ∀ (x : String) (ty : Ty), .app "declare-const" [.symbol x, ty.toSexp] ∈ commands →
    ∃ v, ρ x = some v ∧ v.ty = ty
  asserted : ∀ e, .app "assert" [e] ∈ commands → e.value .empty ρ = some (.bool true)

namespace SmtConfig

variable {conf : SmtConfig} {c : Condition} {e : Sexp}

/-- Options and the logic declare and assert nothing. -/
theorem not_mem_preamble {l : Launch} {head : String} {args : List Sexp}
    (h : head ∉ ["set-option", "set-logic"]) : .app head args ∉ Session.preamble l := by
  intro hmem
  refine h ?_
  rcases List.mem_append.1 hmem with hmem | hmem
  · obtain ⟨option, -, heq⟩ := List.mem_map.1 hmem
    exact (Sexp.app_inj.1 heq).1 ▸ List.mem_cons_self
  · exact (Sexp.app_inj.1 (List.mem_singleton.1 hmem)).1 ▸ List.mem_cons_of_mem _ List.mem_cons_self

theorem mem_commands_iff {head : String} {args : List Sexp}
    (h : head ∉ ["set-option", "set-logic"]) : .app head args ∈ conf.commands c ↔
      (∃ b ∈ c.vars, "declare-const" = head ∧ [.symbol b.name, b.ty.toSexp] = args) ∨
        head = "assert" ∧ args = [.app "not" [c.formula.toSexp]] := by
  rw [commands, List.mem_append, or_iff_right (not_mem_preamble h), SmtOracle.statement,
    List.mem_append, List.mem_map, List.mem_singleton, Sexp.app_inj]
  simp only [Ty.toSexp, Sexp.app_inj]

/-- The variables of the condition are declared with their sorts, and nothing else is. -/
theorem declared_iff {x : String} {ty : Ty} :
    .app "declare-const" [.symbol x, ty.toSexp] ∈ conf.commands c ↔ ⟨x, ty⟩ ∈ c.vars := by
  rw [mem_commands_iff (by decide)]
  constructor
  · rintro (⟨⟨x', ty'⟩, hb, -, hargs⟩ | ⟨hhead, -⟩)
    · injection hargs with hname hargs
      injection hargs with hty
      rwa [← Sexp.symbol_inj.1 hname, ← Ty.toSexp_inj.1 hty]
    · exact absurd hhead (by decide)
  · exact fun hb => .inl ⟨⟨x, ty⟩, hb, rfl, rfl⟩

/-- The negation of the formula is asserted, and nothing else is. -/
theorem asserted_iff : .app "assert" [e] ∈ conf.commands c ↔
    e = .app "not" [c.formula.toSexp] := by
  rw [mem_commands_iff (by decide)]
  constructor
  · rintro (⟨b, -, hhead, -⟩ | ⟨-, hargs⟩)
    · exact absurd hhead (by decide)
    · exact List.singleton_inj.1 hargs
  · exact fun he => .inr ⟨rfl, congrArg (fun e => [e]) he⟩

end SmtConfig

namespace Condition

variable {l : Logic} {c : Condition}

/-- The negation of a condition is true where the condition is false. -/
theorem value_negation (h : c.WellFormed l)
    (hnames : ∀ b ∈ c.vars, b.name ≠ "true" ∧ b.name ≠ "false") (hρ : ρ.Fits (.ofBinders c.vars)) :
    (Sexp.app "not" [c.formula.toSexp]).value .empty ρ = some (.bool true) ↔
      c.formula.meaning .empty ρ = some (.bool false) := by
  have hctx : Context.ofBinders c.vars "true" = none ∧ Context.ofBinders c.vars "false" = none :=
    ⟨Context.ofBinders_eq_none fun b hb => (hnames b hb).1,
      Context.ofBinders_eq_none fun b hb => (hnames b hb).2⟩
  have htyped : Term.HasTy [] (.ofBinders c.vars) c.formula .bool :=
    Term.hasTy_of_sortOf c.formula .bool h.sort
  obtain ⟨v, hv, hty⟩ := htyped.exists_meaning Interpretation.empty_fits hρ
  obtain ⟨b, rfl⟩ := Datum.exists_bool hty
  rw [Sexp.value_app_one, Term.value_toSexp hctx htyped, hv]
  cases b <;> simp [Operator.ofSymbol, Operator.value, UnaryOp.exact]

/-- The values that satisfy the commands are those that make the condition false. -/
theorem satisfies_commands_iff (h : c.WellFormed l)
    (hnames : ∀ b ∈ c.vars, b.name ≠ "true" ∧ b.name ≠ "false") (conf : SmtConfig) :
    ρ.Satisfies (conf.commands c) ↔
      ρ.Fits (.ofBinders c.vars) ∧ c.formula.meaning .empty ρ = some (.bool false) := by
  constructor
  · rintro ⟨declared, asserted⟩
    have hρ : ρ.Fits (.ofBinders c.vars) := by
      intro x ty hx
      obtain ⟨b, hb, rfl, rfl⟩ := Context.exists_of_ofBinders hx
      exact declared b.name b.ty (SmtConfig.declared_iff.2 hb)
    exact ⟨hρ, (value_negation h hnames hρ).1 (asserted _ (SmtConfig.asserted_iff.2 rfl))⟩
  · rintro ⟨hρ, hfalse⟩
    refine ⟨fun x ty hmem => ?_, fun e hmem => ?_⟩
    · exact hρ x ty (Context.ofBinders_of_mem h.nodup (SmtConfig.declared_iff.1 hmem))
    · rw [SmtConfig.asserted_iff.1 hmem]
      exact (value_negation h hnames hρ).2 hfalse

/-- The commands contradict each other exactly if the condition is valid. -/
theorem valid_iff_not_satisfies (h : c.WellFormed l)
    (hnames : ∀ b ∈ c.vars, b.name ≠ "true" ∧ b.name ≠ "false") (conf : SmtConfig) :
    c.Valid .empty ↔ ∀ ρ : Valuation, ¬ρ.Satisfies (conf.commands c) := by
  have htyped : Term.HasTy [] (.ofBinders c.vars) c.formula .bool :=
    Term.hasTy_of_sortOf c.formula .bool h.sort
  constructor
  · intro hvalid ρ hρ
    obtain ⟨hfits, hfalse⟩ := (satisfies_commands_iff h hnames conf).1 hρ
    cases (hvalid ρ hfits).symm.trans hfalse
  · intro hnone ρ hρ
    obtain ⟨v, hv, hty⟩ := htyped.exists_meaning Interpretation.empty_fits hρ
    obtain ⟨b, rfl⟩ := Datum.exists_bool hty
    cases b with
    | true => exact hv
    | false => exact absurd ((satisfies_commands_iff h hnames conf).2 ⟨hρ, hv⟩) (hnone ρ)

end Condition

end InvariantSearch
