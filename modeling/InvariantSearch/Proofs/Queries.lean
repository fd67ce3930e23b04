import InvariantSearch.Proofs.Fragments
import InvariantSearch.Proofs.Logging
import InvariantSearch.Proofs.Soundness

/-!
# What an oracle is asked

While a problem is solved, the oracle is asked about conditions (`SynthProblem.Asks`). Each of them
is well-formed (`Condition.WellFormed`): its variables are distinct, and its formula is a formula
over them, without calls and in the logic of the problem
(`SynthProblem.Stated.wellFormed_of_asks`).

Sorts and operators are checked of the definitions before their calls are replaced, and of the rules
of a grammar before their holes are filled. So the definitions and grammars that a problem keeps are
in its logic (`SynthProblem.Admitted`), and so are the conditions on every candidate
(`InvConstraint.Checked.wellFormed_condition`).
-/

namespace InvariantSearch

variable {σ : Type}

/-! ## Well-formed conditions -/

namespace Term

mutual

/-- Whether the term has a call. -/
def hasCall : Term → Bool
  | .bool _ | .int _ | .id _ => false
  | .app .. => true
  | .nary _ ts => anyHasCall ts
  | .unary _ t => hasCall t
  | .binary _ s t | .arith _ s t | .compare _ s t => hasCall s || hasCall t
  | .ite c t e => hasCall c || hasCall t || hasCall e

/-- Whether one of the terms has a call. -/
def anyHasCall : List Term → Bool
  | [] => false
  | t :: ts => hasCall t || anyHasCall ts

end

theorem anyHasCall_eq_false {ts : List Term} (h : ∀ t ∈ ts, t.hasCall = false) :
    anyHasCall ts = false := by
  induction ts with
  | nil => rfl
  | cons t ts ih =>
    rw [List.forall_mem_cons] at h
    rw [anyHasCall, h.1, ih h.2, Bool.or_false]

variable {sig : Signature} {ctx : Context} {s t : Term} {ty : Ty}

/-- Where no functions are in scope there are no calls. -/
theorem HasTy.hasCall_eq (h : HasTy [] ctx t ty) : t.hasCall = false := by
  induction h with
  | bool | int | id => rfl
  | app h => simp [Signature.find?] at h
  | nary _ _ ih => exact anyHasCall_eq_false ih
  | not _ ih | neg _ ih => exact ih
  | equals _ _ ihs iht | implies _ _ ihs iht | arith _ _ ihs iht | compare _ _ ihs iht =>
    rw [hasCall, ihs, iht, Bool.or_false]
  | ite _ _ _ ihc iht ihe => rw [hasCall, ihc, iht, ihe, Bool.or_false, Bool.or_false]

theorem HasTy.operands (h : HasTy sig ctx t .bool) (op : NaryOp) :
    t.operands op ≠ [] ∧ ∀ u ∈ t.operands op, HasTy sig ctx u .bool := by
  constructor
  · intro hnil
    unfold Term.operands at hnil
    split at hnil
    next op' ts =>
      split at hnil
      next =>
        cases h with
        | nary ne _ => exact ne hnil
      next => cases hnil
    next => cases hnil
  · intro u hu
    rcases mem_operands hu with rfl | ⟨ts, rfl, hts⟩
    · exact h
    · cases h with
      | nary _ h => exact h u hts

/-- The conjunction of two formulas is a formula, also where it takes over their operands. -/
theorem HasTy.conj (hs : HasTy sig ctx s .bool) (ht : HasTy sig ctx t .bool) :
    HasTy sig ctx (Term.conj [s, t]) .bool := by
  refine .nary (fun hnil => ?_) fun u hu => ?_
  · rw [List.flatMap_cons, List.append_eq_nil_iff] at hnil
    exact (hs.operands .and).1 hnil.1
  · obtain ⟨v, hv, huv⟩ := List.mem_flatMap.1 hu
    rcases List.mem_pair.1 hv with rfl | rfl
    · exact (hs.operands .and).2 u huv
    · exact (ht.operands .and).2 u huv

/-- The primed term has the sort of the term. -/
theorem HasTy.prime {vars : List Binder} (nodup : (vars.map (·.name)).Nodup)
    (h : HasTy [] (.ofBinders vars) t ty) {ctx : Context}
    (hctx : ∀ b ∈ vars, ctx b.prime.name = some b.ty) : HasTy [] ctx (t.prime vars) ty := by
  refine h.subst fun x ty hx => ?_
  obtain ⟨b, hb, rfl, rfl⟩ := Context.exists_of_ofBinders hx
  rw [ofList_prime nodup hb, Option.getD_some]
  exact .id (hctx b hb)

end Term

/-- A definition is a formula on variables of its parameters' sorts. -/
theorem FunDef.Closed.hasTy_unfold_vars {d : FunDef} (h : d.Closed) {bs : List Binder}
    (htys : d.params.map (·.ty) = bs.map (·.ty)) {ctx : Context}
    (hctx : ∀ b ∈ bs, ctx b.name = some b.ty) :
    Term.HasTy [] ctx (d.unfold (bs.map fun b => .id b.name)) d.ret := by
  refine h.hasTy_unfold (by simpa using congrArg List.length htys) fun p hp => ?_
  rw [htys, List.zip_map'] at hp
  obtain ⟨b, hb, rfl⟩ := List.mem_map.1 hp
  exact .id (hctx b hb)

/-- The variables of the condition are distinct, and its formula is a formula over them, without
calls and in the logic. -/
structure Condition.WellFormed (l : Logic) (c : Condition) : Prop where
  nodup : (c.vars.map (·.name)).Nodup
  noCall : c.formula.hasCall = false
  sort : c.formula.sortOf [] (.ofBinders c.vars) = .ok .bool
  admits : l.admits c.formula = .ok ()

theorem Condition.wellFormed_of_hasTy {l : Logic} {c : Condition}
    (nodup : (c.vars.map (·.name)).Nodup) (h : Term.HasTy [] (.ofBinders c.vars) c.formula .bool)
    (admitted : l.Admitted c.formula) : c.WellFormed l :=
  ⟨nodup, h.hasCall_eq, h.sortOf_eq, admitted.admits_eq⟩

namespace InvConstraint

/-- The definitions of the constraint are predicates in the logic. -/
structure Admitted (l : Logic) (c : InvConstraint) : Prop where
  preRet : c.pre.ret = .bool
  transRet : c.trans.ret = .bool
  pre : l.Admitted c.pre.body
  trans : l.Admitted c.trans.body
  post : l.Admitted c.post.body

variable {l : Logic} {c : InvConstraint} {t : Term}

theorem admitted_of_mem_vars {vars : List Binder} :
    ∀ u ∈ vars.map fun b => Term.id b.name, l.Admitted u :=
  List.forall_mem_map.2 fun b _ => .id b.name

/-- The conditions on a formula over the parameters are well-formed. -/
theorem Checked.wellFormed_condition (h : c.Checked) (hl : c.Admitted l)
    (ht : Term.HasTy [] (.ofBinders c.inv.params) t .bool) (admitted : l.Admitted t)
    (kind : ConditionKind) : (c.system.condition kind t).WellFormed l := by
  have hvars : ∀ b ∈ c.inv.params, Context.ofBinders c.inv.params b.name = some b.ty :=
    fun b hb => Context.ofBinders_of_mem h.nodup hb
  cases kind with
  | init =>
    refine Condition.wellFormed_of_hasTy h.nodup (.implies ?_ ht)
      (.binary (hl.pre.unfold admitted_of_mem_vars) admitted)
    rw [← hl.preRet]
    exact h.pre.hasTy_unfold_vars h.preTys hvars
  | safety =>
    refine Condition.wellFormed_of_hasTy h.nodup (.implies ht ?_)
      (.binary admitted (hl.post.unfold admitted_of_mem_vars))
    rw [← h.postRet]
    exact h.post.hasTy_unfold_vars h.postTys hvars
  | step =>
    have nodup := nodup_append_prime h.nodup h.clash
    have hboth : ∀ b ∈ c.inv.params ++ c.inv.params.map Binder.prime,
        Context.ofBinders (c.inv.params ++ c.inv.params.map Binder.prime) b.name = some b.ty :=
      fun b hb => Context.ofBinders_of_mem nodup hb
    have hcurrent : Term.HasTy [] (.ofBinders (c.inv.params ++ c.inv.params.map Binder.prime)) t
        .bool := by
      refine ht.mono (fun _ _ hf => hf) fun x ty hx => ?_
      obtain ⟨b, hb, rfl, rfl⟩ := Context.exists_of_ofBinders hx
      exact hboth b (List.mem_append_left _ hb)
    have hnext : Term.HasTy [] (.ofBinders (c.inv.params ++ c.inv.params.map Binder.prime))
        (t.prime c.inv.params) .bool :=
      ht.prime h.nodup fun b hb => hboth b.prime (List.mem_append_right _ (List.mem_map_of_mem hb))
    have htrans : c.system.trans = c.trans.unfold
        ((c.inv.params ++ c.inv.params.map Binder.prime).map fun b => .id b.name) :=
      congrArg c.trans.unfold (map_id_append_prime c.inv.params)
    have htransTys : c.trans.params.map (·.ty) =
        (c.inv.params ++ c.inv.params.map Binder.prime).map (·.ty) := by
      rw [h.transTys, List.map_append, List.map_map]
      rfl
    refine Condition.wellFormed_of_hasTy nodup (.implies (.conj hcurrent ?_) hnext)
      (.binary (.conj admitted ?_) (admitted.prime c.inv.params))
    · rw [htrans, ← hl.transRet]
      exact h.trans.hasTy_unfold_vars htransTys hboth
    · rw [htrans]
      exact hl.trans.unfold admitted_of_mem_vars

end InvConstraint

/-! ## Problems in a logic -/

namespace SynthProblem

variable {options : ProblemOptions} {given : Given} {p p' : SynthProblem} {c : InvConstraint}

/-- What the checks of a problem ensure about its logic: definitions and grammars are in the logic,
also after calls are replaced. -/
structure Admitted (p : SynthProblem) : Prop where
  defs : ∀ d ∈ p.defs, p.logic.Admitted d.body
  grammar : ∀ f ∈ p.synthFuns, ∀ b, f.grammar = some b → b.Admitted p.logic
  constraint : ∀ c, p.constraint = some c → c.Admitted p.logic

theorem admitted_new (h : SynthProblem.new options = .ok p) : p.Admitted := by
  obtain rfl := new_eq_ok h
  exact ⟨by simp, by simp, by simp⟩

theorem Admitted.define (h : p.Admitted) {d : FunDef} (hd : p.define d = .ok p') :
    p'.Admitted := by
  obtain ⟨-, -, -, hadmits, rfl⟩ := define_eq_ok hd
  have hbody : p.logic.Admitted d.body := Logic.admits_eq_ok_iff.1 hadmits
  refine ⟨fun d' hd' => ?_, h.grammar, h.constraint⟩
  rcases List.mem_append.1 hd' with hd' | hd'
  · exact h.defs d' hd'
  · obtain rfl := List.mem_singleton.1 hd'
    exact hbody.inline h.defs

theorem Admitted.declare (h : p.Admitted) {name : String} {params : List Binder} {ret : Ty}
    {grammar : Option GrammarSyntax} (hd : p.declare name params ret grammar = .ok p') :
    p'.Admitted := by
  obtain ⟨b?, hgrammar, -, -, -, rfl⟩ := declare_eq_ok hd
  refine ⟨h.defs, fun f hf => ?_, h.constraint⟩
  rcases List.mem_append.1 hf with hf | hf
  · exact h.grammar f hf
  · obtain rfl := List.mem_singleton.1 hf
    rintro b rfl
    obtain ⟨g, hg⟩ := ofSyntax_of_checkGrammar hgrammar
    exact GrammarBuilder.admitted_ofSyntax hg

theorem Admitted.constrain (h : p.Admitted) {inv pre trans post : String}
    (hc : p.constrain inv pre trans post = .ok p') : p'.Admitted := by
  obtain ⟨f, dpre, dtrans, dpost, -, -, hpre, htrans, hpost, rfl⟩ := constrain_eq_ok hc
  obtain ⟨hpreMem, -, hpreRet, -⟩ := predicate_eq_ok hpre
  obtain ⟨htransMem, -, htransRet, -⟩ := predicate_eq_ok htrans
  obtain ⟨hpostMem, -, -, -⟩ := predicate_eq_ok hpost
  refine ⟨h.defs, h.grammar, fun c hc => ?_⟩
  obtain rfl := Option.some.inj hc
  exact ⟨hpreRet, htransRet, h.defs _ hpreMem, h.defs _ htransMem, h.defs _ hpostMem⟩

/-- Every problem that is stated is in its logic. -/
theorem Stated.admitted (h : Stated options given p) : p.Admitted := by
  induction h with
  | new h => exact admitted_new h
  | define _ hd ih => exact ih.define hd
  | declare _ hd ih => exact ih.declare hd
  | constrain _ hc ih => exact ih.constrain hc
  | solve _ hs ih =>
    obtain ⟨c, s, solutions, -, -, -, rfl⟩ := solve_eq_ok hs
    exact ⟨ih.defs, ih.grammar, ih.constraint⟩

/-- The grammar of a predicate is in the logic, whatever constants are given. -/
theorem Admitted.admitted_grammarWith (h : p.Admitted) {f : SynthFun} (hf : f ∈ p.synthFuns)
    (constants : List Int64) : (f.grammarWith p.logic constants).Admitted p.logic := by
  unfold SynthFun.grammarWith
  split
  next b hb => exact (h.grammar f hf b hb).finish constants
  next => exact Grammar.admitted_standard f.params p.logic constants

end SynthProblem

/-! ## Asking the oracle -/

namespace SynthProblem

variable {oracle : Oracle σ} {config : SearchConfig} {p p' : SynthProblem} {q q' : σ}
  {c : Condition}

/-- While the problem is solved, the oracle gets from the state `q` to the state `q'`. The search
may go on from there, and need not end. -/
def Consults (oracle : Oracle σ) (config : SearchConfig) (p : SynthProblem) (q q' : σ) : Prop :=
  ∃ c, p.constraint = some c ∧ ∃ s, Relation.ReflTransGen (Search.Moves oracle)
    (.new c.system (c.inv.grammarWith p.logic c.system.constants) config, q) (s, q')

theorem consults_of_solve {steps : Nat} {r : SynthResult}
    (h : p.solve oracle steps config q = .ok (some (r, p', q'))) :
    p.Consults oracle config q q' := by
  obtain ⟨c, s, solutions, hc, hrun, -⟩ := solve_eq_ok h
  exact ⟨c, hc, s, Search.moves_of_run hrun⟩

/-- While the problem is solved, the oracle is asked about the condition. -/
def Asks (oracle : Oracle σ) (config : SearchConfig) (p : SynthProblem) (q : σ)
    (c : Condition) : Prop :=
  ∃ q' log d, p.Consults oracle.logged config (q, []) (q', log) ∧ (c, d) ∈ log

/-- The log changes nothing: whatever state the oracle gets to, it gets to with a log. -/
theorem Consults.exists_log (h : p.Consults oracle config q q') :
    ∃ log, p.Consults oracle.logged config (q, []) (q', log) := by
  obtain ⟨c, hc, s, hmoves⟩ := h
  obtain ⟨log, hmoves⟩ := Search.exists_logged_moves hmoves
  exact ⟨log, c, hc, s, hmoves⟩

/-- Every condition that the oracle is asked about is well-formed, and in the logic of the
problem. -/
theorem Stated.wellFormed_of_asks {options : ProblemOptions} {given : Given}
    (h : Stated options given p) (hasks : p.Asks oracle config q c) : c.WellFormed p.logic := by
  obtain ⟨q', log, d, ⟨constraint, hconstraint, s, hmoves⟩, hmem⟩ := hasks
  have hchecked := h.checked
  have hadmitted := h.admitted
  obtain ⟨names, -, hrelates⟩ := hchecked.constraint constraint hconstraint
  obtain ⟨t, ⟨size, hderives⟩, hc⟩ := Search.logsCandidates_of_moves hmoves _ hmem
  obtain ⟨kind, rfl⟩ := TransitionSystem.mem_conditions.1 hc
  refine (hrelates.checked hchecked).wellFormed_condition
    (hadmitted.constraint constraint hconstraint) ?_ ?_ kind
  · exact (hchecked.sorted_grammarWith hrelates.inv _ _).hasTy_start hderives
  · exact (hadmitted.admitted_grammarWith hrelates.inv _).derives hderives

/-- About the counter the oracle is first asked whether the precondition implies the formula
`true`. -/
theorem wellFormed_of_asks_counter :
    counter.Asks .trivial ⟨none, none, none, false⟩ ()
      (counterConstraint.system.condition .init (.bool true)) ∧
    (counterConstraint.system.condition .init (.bool true)).WellFormed .lia := by
  have hasks : counter.Asks .trivial ⟨none, none, none, false⟩ ()
      (counterConstraint.system.condition .init (.bool true)) := by
    have hfirst := Enumerator.next_new (g := single [.bool true, .compare .ge (.id "x") (.int 0)])
      none (r := ⟨.bool true, [], 1⟩) rfl rfl rfl (by decide +kernel) 0
    have hstep := Search.step_of_next (s := Search.new counterConstraint.system
      (single [.bool true, .compare .ge (.id "x") (.int 0)]) ⟨none, none, none, false⟩) rfl rfl
      Oracle.trivial.logged hfirst ((), [])
    exact ⟨_, _, .valid, ⟨counterConstraint, rfl, _, .single (.step hstep)⟩, by decide +kernel⟩
  exact ⟨hasks, stated_counter.wellFormed_of_asks hasks⟩

end SynthProblem

end InvariantSearch
