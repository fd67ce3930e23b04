import InvariantSearch.Proofs.Conditions
import InvariantSearch.Proofs.Evaluation

/-!
# Values of conditions

The conditions on a candidate are formulas over the variables of one state or two. They are made by
renaming the parameters of definitions, by priming the candidate, and by a conjunction that takes in
the operands of other conjunctions. Evaluated in words they come to just what they are meant to say
(`TransitionSystem.eval_conditions`): each definition is evaluated at the values of the state, and
the operands are asked for from left to right until the value is known (`shortAnd`,
`shortImplies`). So an overflow is reported where such an evaluation meets it, and nowhere else.
-/

namespace InvariantSearch

/-! ## Operands from left to right -/

/-- The conjunction of two computed truth values. The second is not asked for if the first is
false. -/
def shortAnd (x y : Except EvalError Bool) : Except EvalError Bool := do
  if ← x then y else return false

/-- The implication between two computed truth values. The second is not asked for if the first is
false. -/
def shortImplies (x y : Except EvalError Bool) : Except EvalError Bool := do
  if ← x then y else return true

theorem shortAnd_assoc (x y z : Except EvalError Bool) :
    shortAnd (shortAnd x y) z = shortAnd x (shortAnd y z) := by
  rcases x with e | _ | _ <;> rfl

theorem shortAnd_true (x : Except EvalError Bool) : shortAnd x (.ok true) = x := by
  rcases x with e | _ | _ <;> rfl

namespace Term

variable {sig : Signature} {ctx : Context} {env env' : String → Option Value}

theorem eval_implies (env : String → Option Value) (s t : Term) :
    (s.implies t).eval env =
      (shortImplies (s.evalBool env) (t.evalBool env)).map .bool := by
  rw [implies, eval, evalBool, evalBool]
  rcases s.eval env with e | ⟨b⟩ | i
  · rfl
  · cases b with
    | false => rfl
    | true => rcases t.eval env with e | ⟨c⟩ | j <;> rfl
  · rfl

theorem evalAll_cons (env : String → Option Value) (t : Term) (ts : List Term) :
    evalAll env (t :: ts) = shortAnd (t.evalBool env) (evalAll env ts) := by
  rw [evalAll, evalBool]
  rcases t.eval env with e | ⟨b⟩ | i <;> rfl

theorem evalAll_append (env : String → Option Value) (ss ts : List Term) :
    evalAll env (ss ++ ts) = shortAnd (evalAll env ss) (evalAll env ts) := by
  induction ss with
  | nil => rfl
  | cons s ss ih => rw [List.cons_append, evalAll_cons, evalAll_cons, ih, shortAnd_assoc]

/-- The operands of a formula are evaluated as the formula itself, in the same order. -/
theorem evalAll_operands (env : String → Option Value) (t : Term) :
    evalAll env (operands .and t) = t.evalBool env := by
  have hsingle : evalAll env [t] = t.evalBool env := by
    rw [evalAll_cons, evalAll, shortAnd_true]
  cases t with
  | nary op ts =>
    cases op with
    | and =>
      rw [evalBool, eval]
      show evalAll env ts = _
      rcases evalAll env ts with e | b <;> rfl
    | or => exact hsingle
  | _ => exact hsingle

/-- A conjunction of two formulas asks for the second if the first is true, also where one of them
is itself a conjunction. -/
theorem evalBool_conj (env : String → Option Value) (s t : Term) :
    (conj [s, t]).evalBool env = shortAnd (s.evalBool env) (t.evalBool env) := by
  have hoperands : operands .and (conj [s, t]) = operands .and s ++ operands .and t := by
    show [s, t].flatMap (operands .and) = _
    simp
  rw [← evalAll_operands, hoperands, evalAll_append, evalAll_operands, evalAll_operands]

/-! ## Renamed variables -/

/-- A well-sorted term in which the variables in scope are replaced has the value, or the error,
that it has where the variables have the values of what replaces them. -/
theorem HasTy.eval_subst {σ : Substitution} {t : Term} {ty : Ty} (h : HasTy sig ctx t ty)
    (hσ : ∀ x ty, ctx x = some ty → ((σ x).getD (.id x)).eval env = (Term.id x).eval env') :
    (t.subst σ).eval env = t.eval env' := by
  induction h with
  | bool | int => rfl
  | id hx => exact hσ _ _ hx
  | app => rw [Term.subst, eval, eval]
  | not _ ih | neg _ ih => rw [Term.subst, eval, eval, ih]
  | equals _ _ ihs iht | implies _ _ ihs iht | arith _ _ ihs iht | compare _ _ ihs iht =>
    rw [Term.subst, eval, eval, ihs, iht]
  | nary _ _ ih =>
    have hresults := List.map_congr_left ih
    rw [Term.subst, substAll_eq_map, eval_nary, eval_nary, List.map_map, ← hresults]
    rfl
  | ite _ _ _ ihc iht ihe => rw [Term.subst, eval, eval, ihc, iht, ihe]

/-- The value of a well-sorted term depends on the variables in scope alone. -/
theorem HasTy.eval_congr {t : Term} {ty : Ty} (h : HasTy sig ctx t ty)
    (henv : ∀ x ty, ctx x = some ty → env x = env' x) : t.eval env = t.eval env' := by
  have hnone : (t.subst fun _ => none).eval env = t.eval env := h.eval_subst fun _ _ _ => rfl
  rw [← hnone]
  refine h.eval_subst fun x ty hx => ?_
  show (Term.id x).eval env = _
  rw [eval, eval, henv x ty hx]

/-- A formula whose variables have values of their sorts has a truth value or overflows. -/
theorem HasTy.settles_evalBool {t : Term} (h : HasTy [] ctx t .bool)
    (henv : ∀ x ty, ctx x = some ty → ∃ v, env x = some v ∧ v.ty = ty) :
    Settles (t.evalBool env) True := by
  have hρ : Supplies env (fun x => (env x).map Value.datum) ctx :=
    ⟨fun x v hx => Option.map_eq_some_iff.2 ⟨v, hx, rfl⟩, henv⟩
  refine ((h.settles_eval hρ).imp fun _ => trivial).bind fun v hv => ?_
  exact settles_asBool (h.meaning_of_eval hρ hv).2

end Term

section Settling

variable {x y : Except EvalError Bool}

theorem settles_shortAnd (hx : Settles x True) (hy : Settles y True) :
    Settles (shortAnd x y) True := by
  refine hx.bind fun b _ => ?_
  cases b with
  | true => exact hy
  | false => exact settles_ok false

theorem settles_shortImplies (hx : Settles x True) (hy : Settles y True) :
    Settles (shortImplies x y) True := by
  refine hx.bind fun b _ => ?_
  cases b with
  | true => exact hy
  | false => exact settles_ok true

/-- No other error is possible. -/
theorem Settles.eq_overflow (h : Settles x True) {e : EvalError} (he : x = .error e) :
    e = .overflow := by
  rcases h with ⟨b, hb⟩ | ⟨hx, -⟩
  · rw [he] at hb
    cases hb
  · exact Except.error.inj (he.symm.trans hx)

end Settling

/-! ## Definitions at values -/

theorem lookupLast_eq_some_of_mem {α : Type} {pairs : List (String × α)} {x : String} {a : α}
    (hx : x ∈ pairs.map Prod.fst) (h : ∀ b, (x, b) ∈ pairs → b = a) :
    lookupLast pairs x = some a := by
  cases hlookup : lookupLast pairs x with
  | some b => rw [h b (mem_of_lookupLast hlookup)]
  | none =>
    obtain ⟨p, hp, rfl⟩ := List.mem_map.1 hx
    have hnone := List.find?_eq_none.1 (Option.map_eq_none_iff.1 hlookup) p (List.mem_reverse.2 hp)
    simp at hnone

namespace FunDef

variable {d : FunDef} {env : String → Option Value} {vs : List Value}

/-- The truth value of a predicate at arguments: that of its body, where the parameters have the
arguments as values. -/
def evalAt (d : FunDef) (args : List Value) : Except EvalError Bool :=
  d.body.evalBool (lookupLast ((d.params.map (·.name)).zip args))

/-- The body at terms has the value that the definition has at their values. -/
theorem evalBool_unfold {args : List Term} (h : Term.HasTy [] (.ofBinders d.params) d.body .bool)
    (length : d.params.length = args.length)
    (hvs : List.Forall₂ (fun t v => t.eval env = .ok v) args vs) :
    (d.unfold args).evalBool env = d.evalAt vs := by
  rw [evalAt, Term.evalBool, Term.evalBool, unfold, h.eval_subst fun x ty hx => ?_]
  rw [Context.ofBinders_eq, ← List.zip_map'] at hx
  obtain ⟨arg, harg, -⟩ := lookupLast_zip args (by simpa using length) hx
  obtain ⟨v, hv, hmem⟩ := lookupLast_zip vs hvs.length_eq harg
  rw [instantiation, Substitution.ofList_eq, harg, Option.getD_some, Term.eval, hv]
  exact List.forall₂_zip hvs hmem

/-- At values of the parameters' sorts a predicate has a truth value or overflows. -/
theorem settles_evalAt (h : Term.HasTy [] (.ofBinders d.params) d.body .bool)
    (hvs : vs.map Value.ty = d.params.map (·.ty)) : Settles (d.evalAt vs) True := by
  refine h.settles_evalBool fun x ty hx => ?_
  rw [Context.ofBinders_eq, ← List.zip_map', ← hvs] at hx
  obtain ⟨v, hv, hmem⟩ := lookupLast_zip vs (by simp) hx
  refine ⟨v, hv, ?_⟩
  rw [← List.map_prod_right_eq_zip] at hmem
  obtain ⟨w, -, heq⟩ := List.mem_map.1 hmem
  obtain ⟨hty, rfl⟩ := Prod.mk.inj heq
  exact hty

end FunDef

/-! ## States -/

namespace Assignment

variable {a s s' : Assignment} {vars : List Binder} {x y : String} {v : Value}

theorem find?_insertEntry (x : String) (v : Value) (entries : List (String × Value)) :
    (insertEntry x v entries).find? (·.1 = y) =
      if x = y then some (x, v) else entries.find? (·.1 = y) := by
  induction entries with
  | nil => by_cases h : x = y <;> simp [insertEntry, h]
  | cons entry entries ih =>
    obtain ⟨z, w⟩ := entry
    rw [insertEntry]
    split
    next => by_cases h : x = y <;> simp [h]
    next =>
      split
      next hxz =>
        subst hxz
        by_cases h : x = y <;> simp [h]
      next hxz => by_cases h : x = y <;> by_cases hz : z = y <;> simp_all

theorem get?_insert (a : Assignment) (x : String) (v : Value) :
    (a.insert x v).get? y = if x = y then some v else a.get? y := by
  rw [insert, get?, find?_insertEntry, get?]
  split <;> rfl

/-- Of several pairs with one name the last one counts. -/
theorem get?_ofList_eq (pairs : List (String × Value)) :
    (ofList pairs).get? = lookupLast pairs := by
  funext x
  induction pairs using List.reverseRecOn with
  | nil => rfl
  | append_singleton pairs p ih =>
    rw [ofList, List.foldl_append, List.foldl_cons, List.foldl_nil, ← ofList, get?_insert,
      lookupLast_append, ih]
    by_cases hp : p.1 = x <;> simp [lookupLast, hp]

/-- The values of the variables, in order. -/
def values (a : Assignment) (vars : List Binder) : List Value :=
  vars.filterMap fun b => a.get? b.name

theorem values_cons {b : Binder} (hv : a.get? b.name = some v) :
    a.values (b :: vars) = v :: a.values vars :=
  List.filterMap_cons_some hv

theorem Covers.forall₂_values (h : a.Covers vars) :
    List.Forall₂ (fun b v => a.get? b.name = some v ∧ v.ty = b.ty) vars (a.values vars) := by
  induction vars with
  | nil => exact .nil
  | cons b bs ih =>
    rw [Covers, List.forall_mem_cons] at h
    obtain ⟨⟨v, hv, hty⟩, h⟩ := h
    rw [values_cons hv]
    exact .cons ⟨hv, hty⟩ (ih h)

theorem Covers.map_ty_values (h : a.Covers vars) :
    (a.values vars).map Value.ty = vars.map (·.ty) := by
  rw [← List.forall₂_eq_eq_eq, List.forall₂_map_left_iff, List.forall₂_map_right_iff]
  exact h.forall₂_values.flip.imp fun _ _ hv => hv.2

/-- Where variables are renamed apart, each new name has the value of its variable. -/
theorem Covers.lookupLast_rename (h : a.Covers vars) {f : String → String}
    (hf : Function.Injective f) {b : Binder} (hb : b ∈ vars) :
    lookupLast ((vars.map fun b => f b.name).zip (a.values vars)) (f b.name) = a.get? b.name := by
  obtain ⟨v, hv, -⟩ := h b hb
  rw [hv]
  refine lookupLast_eq_some_of_mem ?_ fun w hw => ?_
  · rw [List.map_fst_zip (by simp [h.forall₂_values.length_eq])]
    exact List.mem_map_of_mem hb
  · rw [List.zip_map_left] at hw
    obtain ⟨⟨c, u⟩, hmem, heq⟩ := List.mem_map.1 hw
    obtain ⟨hname, rfl⟩ := Prod.mk.inj heq
    have hu := (List.forall₂_zip h.forall₂_values hmem).1
    rw [hf hname, hv] at hu
    exact (Option.some.inj hu).symm

/-- A state and the next one in one assignment, where the primed copies of the variables have the
values of the next state. -/
def withNext (vars : List Binder) (s s' : Assignment) : Assignment :=
  .ofList ((vars.map (·.name)).zip (s.values vars) ++
    (vars.map fun b => primeName b.name).zip (s'.values vars))

theorem get?_withNext_prime (hs' : s'.Covers vars) {b : Binder} (hb : b ∈ vars) :
    (withNext vars s s').get? (primeName b.name) = s'.get? b.name := by
  obtain ⟨v, hv, -⟩ := hs' b hb
  rw [withNext, get?_ofList_eq, lookupLast_append, hs'.lookupLast_rename primeName_injective hb, hv,
    Option.some_or]

/-- The variables keep their values if none of them has the name of a primed copy. -/
theorem get?_withNext (clash : ∀ b ∈ vars, ∀ c ∈ vars, b.name ≠ primeName c.name)
    (hs : s.Covers vars) {b : Binder} (hb : b ∈ vars) :
    (withNext vars s s').get? b.name = s.get? b.name := by
  have hnone : lookupLast ((vars.map fun b => primeName b.name).zip (s'.values vars)) b.name =
      none := by
    refine Option.eq_none_iff_forall_ne_some.2 fun v hlookup => ?_
    obtain ⟨c, hc, hname⟩ := List.mem_map.1 (List.of_mem_zip (mem_of_lookupLast hlookup)).1
    exact clash b hb c hc hname.symm
  rw [withNext, get?_ofList_eq, lookupLast_append, hnone, Option.none_or]
  exact hs.lookupLast_rename Function.injective_id hb

end Assignment

/-! ## The conditions -/

section Conditions

variable {vars : List Binder} {d : FunDef} {t : Term} {s s' : Assignment}

theorem Assignment.Covers.exists_value (hs : s.Covers vars) (x : String) (ty : Ty)
    (hx : Context.ofBinders vars x = some ty) : ∃ v, s.get? x = some v ∧ v.ty = ty := by
  obtain ⟨b, hb, rfl, rfl⟩ := Context.exists_of_ofBinders hx
  exact hs b hb

/-- A formula about the state is evaluated there. -/
theorem evalBool_withNext (clash : ∀ b ∈ vars, ∀ c ∈ vars, b.name ≠ primeName c.name)
    (ht : Term.HasTy [] (.ofBinders vars) t .bool) (hs : s.Covers vars) :
    t.evalBool (s.withNext vars s').get? = t.evalBool s.get? := by
  rw [Term.evalBool, Term.evalBool, ht.eval_congr fun x ty hx => ?_]
  obtain ⟨b, hb, rfl, -⟩ := Context.exists_of_ofBinders hx
  exact Assignment.get?_withNext clash hs hb

/-- A primed formula is evaluated in the next state. -/
theorem evalBool_prime (ht : Term.HasTy [] (.ofBinders vars) t .bool) (hs' : s'.Covers vars) :
    (t.prime vars).evalBool (s.withNext vars s').get? = t.evalBool s'.get? := by
  rw [Term.evalBool, Term.evalBool, Term.prime, ht.eval_subst fun x ty hx => ?_]
  obtain ⟨b, hb, rfl, -⟩ := Context.exists_of_ofBinders hx
  have hprime : Substitution.ofList (vars.map fun b => (b.name, .id (primeName b.name))) b.name =
      some (.id (primeName b.name)) := by
    refine lookupLast_eq_some_of_mem ?_ fun u hu => ?_
    · rw [List.map_map]
      exact List.mem_map_of_mem hb
    · obtain ⟨c, -, heq⟩ := List.mem_map.1 hu
      obtain ⟨hname, rfl⟩ := Prod.mk.inj heq
      rw [hname]
  obtain ⟨v, hv, -⟩ := hs' b hb
  rw [hprime, Option.getD_some, Term.eval, Term.eval, Assignment.get?_withNext_prime hs' hb, hv]

theorem eval_vars (hs : s.Covers vars) {env : String → Option Value} {f : String → String}
    (henv : ∀ b ∈ vars, env (f b.name) = s.get? b.name) :
    List.Forall₂ (fun t v => t.eval env = .ok v) (vars.map fun b => Term.id (f b.name))
      (s.values vars) := by
  rw [List.forall₂_map_left_iff]
  refine List.forall₂_iff_zip.2 ⟨hs.forall₂_values.length_eq, fun {b v} hmem => ?_⟩
  rw [Term.eval, henv b (List.of_mem_zip hmem).1, (List.forall₂_zip hs.forall₂_values hmem).1]

/-- A predicate on one state is evaluated at the values of the variables. -/
theorem evalBool_unfold_current (hd : Term.HasTy [] (.ofBinders d.params) d.body .bool)
    (hty : d.params.map (·.ty) = vars.map (·.ty)) (hs : s.Covers vars) :
    (d.unfold (vars.map fun b => .id b.name)).evalBool s.get? = d.evalAt (s.values vars) := by
  refine FunDef.evalBool_unfold hd ?_ (eval_vars (f := id) hs fun _ _ => rfl)
  simpa using congrArg List.length hty

/-- A predicate on two states is evaluated at the values that the variables have in the one and in
the other. -/
theorem evalBool_unfold_next (clash : ∀ b ∈ vars, ∀ c ∈ vars, b.name ≠ primeName c.name)
    (hd : Term.HasTy [] (.ofBinders d.params) d.body .bool)
    (hty : d.params.map (·.ty) = vars.map (·.ty) ++ vars.map (·.ty)) (hs : s.Covers vars)
    (hs' : s'.Covers vars) :
    (d.unfold ((vars.map fun b => .id b.name) ++ vars.map fun b => .id (primeName b.name))).evalBool
      (s.withNext vars s').get? = d.evalAt (s.values vars ++ s'.values vars) := by
  refine FunDef.evalBool_unfold hd ?_ (List.rel_append ?_ ?_)
  · simpa using congrArg List.length hty
  · exact eval_vars (f := id) hs fun b hb => Assignment.get?_withNext clash hs hb
  · exact eval_vars hs' fun b hb => Assignment.get?_withNext_prime hs' hb

/-- Let `pre`, `trans` and `post` be predicates without calls on one state and on two, and let `inv`
be a formula over the state variables. The parameters of the predicates may have any names, but no
variable has the name of a primed copy. At any two states the conditions evaluate as they are meant
to: initiation to "`pre` implies `inv`", consecution to "`inv` and `trans` imply `inv` in the next
state", and safety to "`inv` implies `post`", where the predicates are evaluated at the values of
the variables and the operands are asked for from left to right. These have a truth value or an
overflow, and so have the conditions. -/
theorem TransitionSystem.eval_conditions {pre trans post : FunDef} {inv : Term}
    (clash : ∀ b ∈ vars, ∀ c ∈ vars, b.name ≠ primeName c.name)
    (hpre : pre.body.sortOf [] (.ofBinders pre.params) = .ok .bool)
    (hpreTys : pre.params.map (·.ty) = vars.map (·.ty))
    (htrans : trans.body.sortOf [] (.ofBinders trans.params) = .ok .bool)
    (htransTys : trans.params.map (·.ty) = vars.map (·.ty) ++ vars.map (·.ty))
    (hpost : post.body.sortOf [] (.ofBinders post.params) = .ok .bool)
    (hpostTys : post.params.map (·.ty) = vars.map (·.ty))
    (hinv : inv.sortOf [] (.ofBinders vars) = .ok .bool)
    (hs : s.Covers vars) (hs' : s'.Covers vars) :
    let ts := ofDefs vars pre trans post
    let init := shortImplies (pre.evalAt (s.values vars)) (inv.evalBool s.get?)
    let step := shortImplies
      (shortAnd (inv.evalBool s.get?) (trans.evalAt (s.values vars ++ s'.values vars)))
      (inv.evalBool s'.get?)
    let safety := shortImplies (inv.evalBool s.get?) (post.evalAt (s.values vars))
    (ts.condition .init inv).formula.eval s.get? = init.map .bool ∧
    (ts.condition .step inv).formula.eval (s.withNext vars s').get? = step.map .bool ∧
    (ts.condition .safety inv).formula.eval s.get? = safety.map .bool ∧
    ∀ x ∈ [init, step, safety], ∀ e, x = .error e → e = .overflow := by
  intro ts init step safety
  replace hpre := Term.hasTy_of_sortOf _ _ hpre
  replace htrans := Term.hasTy_of_sortOf _ _ htrans
  replace hpost := Term.hasTy_of_sortOf _ _ hpost
  replace hinv := Term.hasTy_of_sortOf _ _ hinv
  refine ⟨?_, ?_, ?_, ?_⟩
  · rw [condition, Term.eval_implies]
    show (shortImplies ((pre.unfold _).evalBool _) _).map Value.bool = _
    rw [evalBool_unfold_current hpre hpreTys hs]
  · rw [condition, Term.eval_implies, Term.evalBool_conj, evalBool_withNext clash hinv hs]
    show (shortImplies (shortAnd _ ((trans.unfold _).evalBool _)) ((inv.prime vars).evalBool _)).map
      Value.bool = _
    rw [evalBool_unfold_next clash htrans htransTys hs hs', evalBool_prime hinv hs']
  · rw [condition, Term.eval_implies]
    show (shortImplies _ ((post.unfold _).evalBool _)).map Value.bool = _
    rw [evalBool_unfold_current hpost hpostTys hs]
  · have hpre' := FunDef.settles_evalAt hpre (hs.map_ty_values.trans hpreTys.symm)
    have htys : (s.values vars ++ s'.values vars).map Value.ty = trans.params.map (·.ty) := by
      rw [List.map_append, hs.map_ty_values, hs'.map_ty_values, htransTys]
    have htrans' := FunDef.settles_evalAt htrans htys
    have hpost' := FunDef.settles_evalAt hpost (hs.map_ty_values.trans hpostTys.symm)
    have hcurrent := hinv.settles_evalBool hs.exists_value
    have hnext := hinv.settles_evalBool hs'.exists_value
    have hsettles : ∀ x ∈ [init, step, safety], Settles x True := by
      simp only [List.forall_mem_cons]
      exact ⟨settles_shortImplies hpre' hcurrent,
        settles_shortImplies (settles_shortAnd hcurrent htrans') hnext,
        settles_shortImplies hcurrent hpost', by simp⟩
    exact fun x hx e => (hsettles x hx).eq_overflow

end Conditions

/-- Whether a number is not negative, written as a conjunction. -/
def notNegative : Term := .nary .and [.compare .le (.int 0) (.id "x"), .bool true]

def isZero : FunDef := ⟨"is-zero", [⟨"x'", .int⟩], .bool, .equals (.id "x'") (.int 0)⟩

/-- A number that is not negative grows by one. The parameters have each other's names. -/
def grows : FunDef :=
  ⟨"grows", [⟨"x'", .int⟩, ⟨"x", .int⟩], .bool,
    .nary .and [.compare .le (.int 0) (.id "x'"),
      .equals (.id "x") (.arith .add (.id "x'") (.int 1))]⟩

def atLargest : Assignment := .ofList [("x", .int Int64.maxValue)]

/-- The largest number cannot grow, and to find that out is an overflow. -/
theorem TransitionSystem.eval_conditions_atLargest :
    let vars : List Binder := [⟨"x", .int⟩]
    let ts := ofDefs vars isZero grows isZero
    (∀ b ∈ vars, ∀ c ∈ vars, b.name ≠ primeName c.name) ∧ atLargest.Covers vars ∧
    (ts.condition .init notNegative).formula.eval atLargest.get? = .ok (.bool true) ∧
    (ts.condition .step notNegative).formula.eval (atLargest.withNext vars atLargest).get? =
      .error .overflow ∧
    (ts.condition .safety notNegative).formula.eval atLargest.get? = .ok (.bool false) := by
  intro vars ts
  have clash : ∀ b ∈ vars, ∀ c ∈ vars, b.name ≠ primeName c.name := by decide
  have hcovers : atLargest.Covers vars := by
    intro b hb
    obtain rfl := List.mem_singleton.1 hb
    exact ⟨.int Int64.maxValue, rfl, rfl⟩
  have hzero : isZero.body.sortOf [] (.ofBinders isZero.params) = .ok .bool := by decide
  have hgrows : grows.body.sortOf [] (.ofBinders grows.params) = .ok .bool := by decide
  have hinv : notNegative.sortOf [] (.ofBinders vars) = .ok .bool := by decide
  obtain ⟨hinit, hstep, hsafety, -⟩ :=
    eval_conditions clash hzero rfl hgrows rfl hzero rfl hinv hcovers hcovers
  refine ⟨clash, hcovers, hinit.trans ?_, hstep.trans ?_, hsafety.trans ?_⟩
  · decide +kernel
  · decide +kernel
  · decide +kernel

end InvariantSearch
