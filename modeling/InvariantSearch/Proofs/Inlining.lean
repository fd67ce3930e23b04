import InvariantSearch.Proofs.Queries

/-!
# Inlining

Calls are replaced from the inside out: first those in the arguments, then the call itself by the
body at these arguments, and then the calls in the result. `Term.Inlines` says by rules what this
comes to, with no bound on how deep calls are nested, and it has at most one result
(`Inlines.unique`). With the definitions that a problem keeps, every well-sorted term has one, and
`Term.inline` finds it.

A problem keeps its definitions with calls replaced. Nevertheless the result means what the term
means with each call read by the body of the definition as it was given, at the values of the
arguments (`SynthProblem.Stated.inline_spec`).
-/

namespace InvariantSearch

/-- Lists whose elements are determined one by one by those of another list are the same. -/
theorem eq_of_zip {α β : Type} {R : α → β → Prop} {as : List α} {bs cs : List β}
    (hbs : as.length = bs.length) (hcs : as.length = cs.length)
    (h : ∀ p ∈ as.zip bs, ∀ c, R p.1 c → p.2 = c) (hR : ∀ p ∈ as.zip cs, R p.1 p.2) :
    bs = cs := by
  induction as generalizing bs cs with
  | nil =>
    rw [List.length_eq_zero_iff.1 hbs.symm, List.length_eq_zero_iff.1 hcs.symm]
  | cons a as ih =>
    obtain ⟨b, bs, rfl⟩ := List.exists_cons_of_length_eq_add_one hbs.symm
    obtain ⟨c, cs, rfl⟩ := List.exists_cons_of_length_eq_add_one hcs.symm
    rw [List.zip_cons_cons, List.forall_mem_cons] at h hR
    obtain rfl : b = c := h.1 c hR.1
    rw [ih (Nat.succ.inj hbs) (Nat.succ.inj hcs) h.2 hR.2]

namespace Term

/-! ## Replacing calls without a bound -/

/-- Replacing the calls of the definitions in the first term ends with the second. -/
inductive Inlines (defs : List FunDef) : Term → Term → Prop
  | bool (b : Bool) : Inlines defs (.bool b) (.bool b)
  | int (i : Int64) : Inlines defs (.int i) (.int i)
  | id (x : String) : Inlines defs (.id x) (.id x)
  | call {f : String} {d : FunDef} {args args' : List Term} {t : Term}
      (length : args.length = args'.length) (hargs : ∀ p ∈ args.zip args', Inlines defs p.1 p.2)
      (hd : findDef? defs f = some d) (h : Inlines defs (d.unfold args') t) :
      Inlines defs (.app f args) t
  | app {f : String} {args args' : List Term} (length : args.length = args'.length)
      (hargs : ∀ p ∈ args.zip args', Inlines defs p.1 p.2) (hd : findDef? defs f = none) :
      Inlines defs (.app f args) (.app f args')
  | unary (op : UnaryOp) {t t' : Term} (h : Inlines defs t t') :
      Inlines defs (.unary op t) (.unary op t')
  | binary (op : BinaryOp) {s s' t t' : Term} (hs : Inlines defs s s') (ht : Inlines defs t t') :
      Inlines defs (.binary op s t) (.binary op s' t')
  | nary (op : NaryOp) {ts ts' : List Term} (length : ts.length = ts'.length)
      (h : ∀ p ∈ ts.zip ts', Inlines defs p.1 p.2) : Inlines defs (.nary op ts) (.nary op ts')
  | arith (op : ArithOp) {s s' t t' : Term} (hs : Inlines defs s s') (ht : Inlines defs t t') :
      Inlines defs (.arith op s t) (.arith op s' t')
  | compare (rel : Comparison) {s s' t t' : Term} (hs : Inlines defs s s')
      (ht : Inlines defs t t') : Inlines defs (.compare rel s t) (.compare rel s' t')
  | ite {c c' t t' e e' : Term} (hc : Inlines defs c c') (ht : Inlines defs t t')
      (he : Inlines defs e e') : Inlines defs (.ite c t e) (.ite c' t' e')

variable {defs : List FunDef} {ctx : Context} {t u u' : Term} {ty : Ty}

/-- There is at most one result. -/
theorem Inlines.unique (h : Inlines defs t u) (h' : Inlines defs t u') : u = u' := by
  induction h generalizing u' with
  | bool | int | id =>
    cases h'
    rfl
  | call length _ hd _ ihargs ih =>
    cases h' with
    | call length' hargs' hd' h' =>
      obtain rfl := eq_of_zip length length' (fun p hp c hc => ihargs p hp hc) hargs'
      obtain rfl := Option.some.inj (hd.symm.trans hd')
      exact ih h'
    | app _ _ hd' =>
      rw [hd] at hd'
      cases hd'
  | app length _ hd ihargs =>
    cases h' with
    | call _ _ hd' _ =>
      rw [hd] at hd'
      cases hd'
    | app length' hargs' _ =>
      rw [eq_of_zip length length' (fun p hp c hc => ihargs p hp hc) hargs']
  | nary op length _ ih =>
    cases h' with
    | nary _ length' hts' =>
      rw [eq_of_zip length length' (fun p hp c hc => ih p hp hc) hts']
  | unary op _ ih =>
    cases h' with
    | unary _ h' => rw [ih h']
  | binary op _ _ ihs iht =>
    cases h' with
    | binary _ hs' ht' => rw [ihs hs', iht ht']
  | arith op _ _ ihs iht =>
    cases h' with
    | arith _ hs' ht' => rw [ihs hs', iht ht']
  | compare rel _ _ ihs iht =>
    cases h' with
    | compare _ hs' ht' => rw [ihs hs', iht ht']
  | ite _ _ _ ihc iht ihe =>
    cases h' with
    | ite hc' ht' he' => rw [ihc hc', iht ht', ihe he']

theorem inlines_of_map {f : Term → Term} {ts : List Term} (h : ∀ t ∈ ts, Inlines defs t (f t)) :
    ∀ p ∈ ts.zip (ts.map f), Inlines defs p.1 p.2 := by
  rw [← List.map_prod_left_eq_zip, List.forall_mem_map]
  exact h

/-- Calls are replaced everywhere if a call comes to what stands for it, once the calls in its
arguments are replaced. -/
theorem HasTy.inlines_mapCalls {sig sig' : Signature} {call : String → List Term → Term}
    (h : HasTy sig ctx t ty)
    (typed : ∀ f decl args, sig.find? f = some decl → decl.params.length = args.length →
      (∀ p ∈ decl.params.zip args, HasTy sig' ctx p.2 p.1) → HasTy sig' ctx (call f args) decl.ret)
    (hcall : ∀ f decl args args', sig.find? f = some decl → decl.params.length = args'.length →
      (∀ p ∈ decl.params.zip args', HasTy sig' ctx p.2 p.1) → args.length = args'.length →
      (∀ p ∈ args.zip args', Inlines defs p.1 p.2) → Inlines defs (.app f args) (call f args')) :
    Inlines defs t (t.mapCalls call) := by
  induction h with
  | bool b => exact .bool b
  | int i => exact .int i
  | id => exact .id _
  | @app f decl args hf arity hargs ih =>
    have hall (t : Term) (ht : t ∈ args) : Inlines defs t (t.mapCalls call) := by
      obtain ⟨p, hp, rfl⟩ := exists_mem_zip arity ht
      exact ih p hp
    rw [Term.mapCalls, mapCallsAll_eq_map]
    exact hcall f decl args _ hf (by simpa using arity)
      (forall_mem_zip_map fun q hq => (hargs q hq).mapCalls typed) (by simp) (inlines_of_map hall)
  | not _ ih | neg _ ih => exact .unary _ ih
  | equals _ _ ihs iht | implies _ _ ihs iht => exact .binary _ ihs iht
  | nary _ _ ih =>
    rw [Term.mapCalls, mapCallsAll_eq_map]
    exact .nary _ (by simp) (inlines_of_map ih)
  | arith _ _ ihs iht => exact .arith _ ihs iht
  | compare _ _ ihs iht => exact .compare _ ihs iht
  | ite _ _ _ ihc iht ihe => exact .ite ihc iht ihe

/-- A term without functions in scope stays as it is. -/
theorem HasTy.inlines_self (h : HasTy [] ctx t ty) : Inlines defs t t := by
  have typed : ∀ f decl args, Signature.find? [] f = some decl →
      decl.params.length = args.length → (∀ p ∈ decl.params.zip args, HasTy [] ctx p.2 p.1) →
        HasTy [] ctx (.app f args) decl.ret := by
    simp [Signature.find?]
  have hmap : Inlines defs t (t.mapCalls .app) :=
    h.inlines_mapCalls typed fun f decl args args' hf => by simp [Signature.find?] at hf
  rwa [h.mapCalls_eq] at hmap

theorem HasTy.inline_eq (h : HasTy [] ctx t ty) : t.inline defs = t := by
  unfold inline
  cases defs.length with
  | zero => rfl
  | succ depth => exact h.mapCalls_eq

end Term

/-- With definitions that have no calls themselves, to replace the calls of a well-sorted term comes
to an end, without a bound on their depth. -/
theorem Implements.inlines {J : Interpretation} {defs : List FunDef} {ctx : Context} {t : Term}
    {ty : Ty} (h : Implements J defs) (ht : Term.HasTy (defs.map FunDef.decl) ctx t ty) :
    Term.Inlines defs t (t.inline defs) := by
  unfold Term.inline
  cases hdepth : defs.length with
  | zero =>
    obtain rfl := List.length_eq_zero_iff.1 hdepth
    exact ht.inlines_self
  | succ depth =>
    refine ht.inlines_mapCalls (h.hasTy_call depth)
      fun f decl args args' hf length typed length' hargs => ?_
    obtain ⟨d, hd, rfl, rfl, hfind⟩ := h.exists_def hf
    refine .call length' hargs hfind ?_
    rw [hfind]
    show Term.Inlines defs _ (Term.inlineTo defs depth (d.unfold args'))
    rw [h.inlineTo_unfold hd depth length typed]
    exact ((h.closed d hd).hasTy_unfold (by simpa [FunDef.decl] using length) typed).inlines_self

/-! ## The definitions as they were given -/

/-- The definitions are in scope and well sorted, and each of them is read by its own body, with the
calls in it read in the same way. -/
structure Reads (sig : Signature) (ds : List FunDef) : Prop where
  signature : sig = ds.map FunDef.decl
  typed : ∀ d ∈ ds, Term.HasTy sig (.ofBinders d.params) d.body d.ret
  value : ∀ d ∈ ds, Interpretation.ofDefs ds d.name = d.meaning (.ofDefs ds)

/-- One more definition, whose body may call the others. -/
theorem Reads.snoc {sig : Signature} {ds : List FunDef} (h : Reads sig ds) {d : FunDef}
    (fresh : ∀ d' ∈ ds, d'.name ≠ d.name) (ht : Term.HasTy sig (.ofBinders d.params) d.body d.ret) :
    Reads (sig ++ [d.decl]) (ds ++ [d]) := by
  have hsame (f : String) (decl : FunDecl) (hf : sig.find? f = some decl) :
      Interpretation.ofDefs ds f = (Interpretation.ofDefs ds).extend d f := by
    rw [h.signature] at hf
    obtain ⟨d', hd', rfl⟩ := List.mem_map.1 (List.mem_of_find?_eq_some hf)
    obtain rfl : d'.decl.name = f := by simpa using List.find?_some hf
    funext args
    exact (if_neg (fresh d' hd')).symm
  have hmore (f : String) (decl : FunDecl) (hf : sig.find? f = some decl) :
      Signature.find? (sig ++ [d.decl]) f = some decl := by
    rw [Signature.find?, List.find?_append, ← Signature.find?, hf, Option.some_or]
  have hall {P : FunDef → Prop} (hP : ∀ d' ∈ ds, P d') (hd : P d) : ∀ d' ∈ ds ++ [d], P d' := by
    simpa [or_imp, forall_and] using ⟨hP, hd⟩
  refine ⟨by simp [h.signature], hall (fun d' hd' => ?_) (ht.mono hmore fun _ _ hx => hx), ?_⟩
  · exact (h.typed d' hd').mono hmore fun _ _ hx => hx
  rw [Interpretation.ofDefs_append]
  refine hall (fun d' hd' => ?_) ?_
  · rw [← FunDef.meaning_congr (h.typed d' hd') hsame, ← h.value d' hd']
    funext args
    rw [Interpretation.extend, if_neg (fresh d' hd')]
  · rw [← FunDef.meaning_congr ht hsame]
    funext args
    rw [Interpretation.extend, if_pos rfl]

namespace SynthProblem

variable {options : ProblemOptions} {given : Given} {p : SynthProblem}

/-- The definitions of a problem are read as they were given. -/
theorem Stated.reads (h : Stated options given p) : Reads p.signature given.defs := by
  induction h with
  | new h =>
    obtain rfl := new_eq_ok h
    exact ⟨rfl, by simp, by simp⟩
  | @define given p p' d h hd ih =>
    obtain ⟨hfresh, -, hcheck, -, rfl⟩ := define_eq_ok hd
    have hsignature : signature { p with defs := p.defs ++ [d.inline p.defs] } =
        p.signature ++ [d.decl] := by
      rw [signature, List.map_append]
      rfl
    rw [hsignature]
    refine ih.snoc (fun d' hd' hname => ?_) (hasTy_of_check hcheck)
    have hmem : d'.decl ∈ p.signature := by
      rw [ih.signature]
      exact List.mem_map_of_mem hd'
    obtain ⟨e, he, hdecl⟩ := List.mem_map.1 hmem
    exact (checkFresh_eq_ok hfresh).1 e he ((congrArg FunDecl.name hdecl).trans hname)
  | declare _ hd ih =>
    obtain ⟨b?, -, -, -, -, rfl⟩ := declare_eq_ok hd
    exact ih
  | constrain _ hc ih =>
    obtain ⟨f, dpre, dtrans, dpost, -, -, -, -, -, rfl⟩ := constrain_eq_ok hc
    exact ih
  | solve _ hs ih =>
    obtain ⟨c, s, solutions, -, -, -, rfl⟩ := solve_eq_ok hs
    exact ih

/-- Let the definitions of a problem be read as they were given: each by its own body at the values
of the arguments, whose sorts have to be those of the parameters, and the calls in the body in the
same way. To replace the calls of a well-sorted term comes to an end. The result has no calls, the
same sort without any functions in scope, and the value that the term has, whatever the values of
the variables are; and the term has a value where all variables in scope have values of their sorts.
To replace the calls of the result changes nothing. -/
theorem Stated.inline_spec (h : Stated options given p) {ctx : Context} {t : Term} {ty : Ty}
    (ht : t.sortOf p.signature ctx = .ok ty) :
    (∀ u, Term.Inlines p.defs t u ↔ u = t.inline p.defs) ∧
    (t.inline p.defs).hasCall = false ∧
    (t.inline p.defs).sortOf [] ctx = .ok ty ∧
    (∀ d ∈ given.defs, Interpretation.ofDefs given.defs d.name =
      d.meaning (.ofDefs given.defs)) ∧
    (∀ ρ v, t.meaning (.ofDefs given.defs) ρ = some v →
      (t.inline p.defs).meaning .empty ρ = some v) ∧
    (∀ ρ : Valuation, ρ.Fits ctx →
      ∃ v, t.meaning (.ofDefs given.defs) ρ = some v ∧ v.ty = ty) ∧
    (t.inline p.defs).inline p.defs = t.inline p.defs := by
  have hdefs := h.checked.defs
  have htyped : Term.HasTy (p.defs.map FunDef.decl) ctx t ty := Term.hasTy_of_sortOf t ty ht
  have hinlined := hdefs.hasTy_inline htyped
  refine ⟨fun u => ⟨fun hu => hu.unique (hdefs.inlines htyped), ?_⟩, hinlined.hasCall_eq,
    hinlined.sortOf_eq, h.reads.value, fun ρ v => hdefs.meaning_inline_of_some htyped,
    fun ρ => htyped.exists_meaning hdefs.fits, hinlined.inline_eq⟩
  rintro rfl
  exact hdefs.inlines htyped

/-- The difference of two numbers. -/
def difference : FunDef :=
  ⟨"difference", [⟨"x", .int⟩, ⟨"y", .int⟩], .int, .arith .sub (.id "x") (.id "y")⟩

/-- The difference the other way round. -/
def reversed : FunDef :=
  ⟨"reversed", difference.params, .int, .app "difference" [.id "y", .id "x"]⟩

def differences : SynthProblem :=
  { logic := .lia
    defs := [difference, { reversed with body := .arith .sub (.id "y") (.id "x") }]
    synthFuns := []
    constraint := none
    solutions := none }

/-- Variables of the names of the parameters may be arguments in any places. -/
theorem inline_reversed :
    Stated .default ⟨[difference, reversed], none⟩ differences ∧
    (Term.app "reversed" [.id "y", .id "x"]).sortOf differences.signature
      (.ofBinders reversed.params) = .ok .int ∧
    Term.Inlines differences.defs (.app "reversed" [.id "y", .id "x"])
      (.arith .sub (.id "x") (.id "y")) := by
  have hstated : Stated .default ⟨[difference, reversed], none⟩ differences :=
    .define (d := reversed) (.define (d := difference) (.new rfl) rfl) rfl
  have hsort : (Term.app "reversed" [.id "y", .id "x"]).sortOf differences.signature
      (.ofBinders reversed.params) = .ok .int := by
    decide
  exact ⟨hstated, hsort, ((hstated.inline_spec hsort).1 _).2 (by decide)⟩

end SynthProblem

end InvariantSearch
