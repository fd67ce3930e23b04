import InvariantSearch.Proofs.Definitions
import InvariantSearch.Proofs.Searching
import InvariantSearch.Synthesis.Solve

/-!
# What the conditions say about states

A state is a list of values for the parameters of the predicate. The conditions on a candidate are
about formulas whose variables are those parameters and their primed copies; here they are read as
statements about the definitions of the constraint and about one or two states. If no condition is
ever false, the candidate holds in all states that are reached from the precondition, and the
postcondition does as well (`InvConstraint.Checked.invariant`).
-/

namespace InvariantSearch

variable {I : Interpretation} {ρ : Valuation}

/-! ## Names of the next state -/

theorem primeName_injective : Function.Injective primeName := by
  intro x y h
  have hlist := congrArg String.toList h
  exact String.toList_inj.1 (by simpa [primeName] using hlist)

/-- Variables and their primed copies have distinct names if no clash is found. -/
theorem nodup_append_prime {vars : List Binder} (nodup : (vars.map (·.name)).Nodup)
    (clash : SynthProblem.primedClash? vars = none) :
    ((vars ++ vars.map Binder.prime).map (·.name)).Nodup := by
  have hprimed : (vars.map Binder.prime).map (·.name) = (vars.map (·.name)).map primeName := by
    rw [List.map_map, List.map_map]
    rfl
  rw [List.map_append, hprimed, List.nodup_append]
  refine ⟨nodup, nodup.map primeName_injective, fun x hx y hy => ?_⟩
  rintro rfl
  obtain ⟨b, hb, rfl⟩ := List.mem_map.1 hx
  rw [List.map_map] at hy
  have hnone := List.find?_eq_none.1 clash b.name hy
  exact hnone (List.any_eq_true.2 ⟨b, hb, by simp⟩)

/-- Of distinct variables each is renamed to its primed copy. -/
theorem ofList_prime {vars : List Binder} (nodup : (vars.map (·.name)).Nodup) {b : Binder}
    (hb : b ∈ vars) :
    Substitution.ofList (vars.map fun b => (b.name, Term.id (primeName b.name))) b.name =
      some (.id b.prime.name) := by
  refine lookupLast_of_mem ?_ (List.mem_map.2 ⟨b, hb, rfl⟩)
  rw [List.map_map]
  exact nodup

theorem map_id_append_prime (vars : List Binder) :
    ((vars.map fun b => Term.id b.name) ++ vars.map fun b => .id (primeName b.name)) =
      (vars ++ vars.map Binder.prime).map fun b => .id b.name := by
  rw [List.map_append, List.map_map]
  rfl

/-! ## Values of parameters -/

section Values

variable {bs : List Binder} {vs : List Datum}

theorem ofArgs_of_mem (nodup : (bs.map (·.name)).Nodup) (length : bs.length = vs.length)
    {b : Binder} {v : Datum} (h : (b, v) ∈ bs.zip vs) :
    Valuation.ofArgs bs vs b.name = some v := by
  refine lookupLast_of_mem ?_ ?_
  · rwa [List.map_fst_zip (by simp [length])]
  · rw [List.zip_map_left]
    exact List.mem_map.2 ⟨(b, v), h, rfl⟩

/-- The parameters as terms have the values that they are given. -/
theorem meanings_params (nodup : (bs.map (·.name)).Nodup) (length : bs.length = vs.length) :
    Term.meanings I (.ofArgs bs vs) (bs.map fun b => .id b.name) = some vs := by
  refine Term.meanings_eq_some (by simpa using length) fun p hp => ?_
  rw [List.zip_map_left] at hp
  obtain ⟨⟨b, v⟩, hmem, rfl⟩ := List.mem_map.1 hp
  exact ofArgs_of_mem nodup length hmem

end Values

/-! ## The formulas of conditions -/

namespace Term

variable {s t : Term} {a b : Bool}

theorem meaning_implies (hs : s.meaning I ρ = some (.bool a))
    (ht : t.meaning I ρ = some (.bool b)) : (s.implies t).meaning I ρ = some (.bool (!a || b)) := by
  rw [implies, meaning, hs, ht]
  rfl

/-- The operands of a formula are all true if and only if the formula is. -/
theorem meanings_operands (ht : t.meaning I ρ = some (.bool b)) :
    ∃ bs : List Bool, meanings I ρ (operands .and t) = some (bs.map .bool) ∧
      (bs.all fun b => b) = b := by
  have hsingle : meanings I ρ [t] = some ([b].map .bool) := by simp [meanings, ht]
  cases t with
  | nary op ts =>
    cases op with
    | and =>
      obtain ⟨vs, hvs, h⟩ := Option.bind_eq_some_iff.1 ht
      obtain ⟨bs, hbs, h⟩ := Option.map_eq_some_iff.1 h
      rw [truths_eq_some hbs] at hvs
      exact ⟨bs, hvs, Datum.bool.inj h⟩
    | or => exact ⟨[b], hsingle, by simp⟩
  | _ => exact ⟨[b], hsingle, by simp⟩

/-- A conjunction of two formulas is true if and only if both are, also where one of them is itself
a conjunction. -/
theorem meaning_conj (hs : s.meaning I ρ = some (.bool a)) (ht : t.meaning I ρ = some (.bool b)) :
    (conj [s, t]).meaning I ρ = some (.bool (a && b)) := by
  obtain ⟨as, has, ha⟩ := meanings_operands hs
  obtain ⟨bs, hbs, hb⟩ := meanings_operands ht
  have hall : meanings I ρ ([s, t].flatMap (operands .and)) = some ((as ++ bs).map .bool) := by
    rw [List.flatMap_cons, List.flatMap_cons, List.flatMap_nil, List.append_nil, List.map_append]
    exact meanings_append has hbs
  show (meanings I ρ ([s, t].flatMap (operands .and))).bind (NaryOp.exact .and) = _
  rw [hall, Option.bind_some, NaryOp.exact_map_bool, NaryOp.holds, List.all_append, ha, hb]

end Term

/-! ## One state and the next -/

section States

variable {vars : List Binder} {s s' : List Datum} {t : Term} {ty : Ty}

/-- A term about a state has the value that it has there, whatever the next state is. -/
theorem meaning_current (nodup : ((vars ++ vars.map Binder.prime).map (·.name)).Nodup)
    (length : vars.length = s.length) (length' : vars.length = s'.length)
    (ht : Term.HasTy [] (.ofBinders vars) t ty) :
    t.meaning I (.ofArgs (vars ++ vars.map Binder.prime) (s ++ s')) =
      t.meaning I (.ofArgs vars s) := by
  have nodup' : (vars.map (·.name)).Nodup := by
    rw [List.map_append] at nodup
    exact nodup.of_append_left
  refine ht.meaning_congr (fun _ _ _ => rfl) fun x ty hx => ?_
  obtain ⟨b, hb, rfl, -⟩ := Context.exists_of_ofBinders hx
  obtain ⟨v, hv⟩ := exists_mem_zip_left length hb
  have hv' : (b, v) ∈ (vars ++ vars.map Binder.prime).zip (s ++ s') := by
    rw [List.zip_append length]
    exact List.mem_append_left _ hv
  rw [ofArgs_of_mem nodup (by simp [length, ← length']) hv', ofArgs_of_mem nodup' length hv]

/-- A primed term has the value that the term has in the next state. -/
theorem meaning_prime (nodup : ((vars ++ vars.map Binder.prime).map (·.name)).Nodup)
    (length : vars.length = s.length) (length' : vars.length = s'.length)
    (ht : Term.HasTy [] (.ofBinders vars) t ty) :
    (t.prime vars).meaning I (.ofArgs (vars ++ vars.map Binder.prime) (s ++ s')) =
      t.meaning I (.ofArgs vars s') := by
  have nodup' : (vars.map (·.name)).Nodup := by
    rw [List.map_append] at nodup
    exact nodup.of_append_left
  rw [Term.prime, Term.meaning_subst]
  refine ht.meaning_congr (fun _ _ _ => rfl) fun x ty hx => ?_
  obtain ⟨b, hb, rfl, -⟩ := Context.exists_of_ofBinders hx
  obtain ⟨v, hv⟩ := exists_mem_zip_left length' hb
  have hv' : (b.prime, v) ∈ (vars ++ vars.map Binder.prime).zip (s ++ s') := by
    rw [List.zip_append length, List.zip_map_left]
    exact List.mem_append_right _ (List.mem_map.2 ⟨(b, v), hv, rfl⟩)
  rw [ofList_prime nodup' hb, Option.getD_some, Term.meaning,
    ofArgs_of_mem nodup (by simp [length, ← length']) hv', ofArgs_of_mem nodup' length' hv]

end States

/-! ## The conditions of a constraint -/

/-- The condition is false for no values of its variables. -/
def Condition.NeverFalse (c : Condition) : Prop :=
  ∀ ρ : Valuation, ρ.Fits (.ofBinders c.vars) → c.formula.meaning .empty ρ ≠ some (.bool false)

theorem FunDef.map_ty_of_meaning {d : FunDef} {vs : List Datum} {v : Datum}
    (h : d.meaning I vs = some v) : vs.map Datum.ty = d.params.map (·.ty) := by
  unfold FunDef.meaning at h
  split at h
  next htys => exact htys
  next => cases h

namespace InvConstraint

/-- What was checked of a constraint: the parameters of the predicate and their primed copies are
distinct, and the definitions are predicates without calls on one state or two. -/
structure Checked (c : InvConstraint) : Prop where
  nodup : (c.inv.params.map (·.name)).Nodup
  clash : SynthProblem.primedClash? c.inv.params = none
  pre : c.pre.Closed
  trans : c.trans.Closed
  post : c.post.Closed
  preTys : c.pre.params.map (·.ty) = c.inv.params.map (·.ty)
  transTys : c.trans.params.map (·.ty) = c.inv.params.map (·.ty) ++ c.inv.params.map (·.ty)
  postTys : c.post.params.map (·.ty) = c.inv.params.map (·.ty)
  postRet : c.post.ret = .bool

variable {c : InvConstraint} {t : Term} {s s' : List Datum}

/-- The candidate has a truth value in every state. -/
theorem exists_truth (ht : Term.HasTy [] (.ofBinders c.inv.params) t .bool)
    (hs : s.map Datum.ty = c.inv.params.map (·.ty)) :
    ∃ b, t.meaning .empty (.ofArgs c.inv.params s) = some (.bool b) ∧
      (c.inv.defineAs t).meaning .empty s = some (.bool b) := by
  obtain ⟨v, hv, hty⟩ := ht.exists_meaning Interpretation.empty_fits (Valuation.ofArgs_fits hs)
  obtain ⟨b, rfl⟩ := Datum.exists_bool hty
  refine ⟨b, hv, ?_⟩
  rw [FunDef.meaning]
  exact (if_pos hs).trans hv

/-- A definition on one state, renamed to the parameters of the predicate, has its value there. -/
theorem meaning_unfold_current (nodup : (c.inv.params.map (·.name)).Nodup) {d : FunDef}
    (hd : d.Closed) (htys : d.params.map (·.ty) = c.inv.params.map (·.ty))
    (hs : s.map Datum.ty = c.inv.params.map (·.ty)) :
    (d.unfold (c.inv.params.map fun b => .id b.name)).meaning .empty (.ofArgs c.inv.params s) =
      d.meaning .empty s := by
  have length : c.inv.params.length = s.length := by simpa using congrArg List.length hs.symm
  exact hd.meaning_unfold (meanings_params nodup length) (hs.trans htys.symm)

/-- Where the precondition holds the candidate does. -/
theorem Checked.init (h : c.Checked) (ht : Term.HasTy [] (.ofBinders c.inv.params) t .bool)
    (hinit : (c.system.condition .init t).NeverFalse)
    (hpre : c.pre.meaning .empty s = some (.bool true)) :
    (c.inv.defineAs t).meaning .empty s = some (.bool true) := by
  have hs := (FunDef.map_ty_of_meaning hpre).trans h.preTys
  obtain ⟨b, hb, hvalue⟩ := exists_truth ht hs
  have hne : ((c.pre.unfold _).implies t).meaning .empty (.ofArgs c.inv.params s) ≠ _ :=
    hinit _ (Valuation.ofArgs_fits hs)
  have hpre' := (meaning_unfold_current h.nodup h.pre h.preTys hs).trans hpre
  rw [Term.meaning_implies hpre' hb] at hne
  cases b with
  | true => exact hvalue
  | false => exact absurd rfl hne

/-- Where the candidate holds the postcondition does. -/
theorem Checked.safety (h : c.Checked) (ht : Term.HasTy [] (.ofBinders c.inv.params) t .bool)
    (hsafety : (c.system.condition .safety t).NeverFalse)
    (hinv : (c.inv.defineAs t).meaning .empty s = some (.bool true)) :
    c.post.meaning .empty s = some (.bool true) := by
  have hs : s.map Datum.ty = c.inv.params.map (·.ty) := FunDef.map_ty_of_meaning hinv
  obtain ⟨b, hb, hvalue⟩ := exists_truth ht hs
  obtain rfl : b = true := by simpa [hinv] using hvalue.symm
  obtain ⟨v, hv, hty⟩ := h.post.exists_meaning (hs.trans h.postTys.symm)
  obtain ⟨a, rfl⟩ := Datum.exists_bool (hty.trans h.postRet)
  have hne : (t.implies (c.post.unfold _)).meaning .empty (.ofArgs c.inv.params s) ≠ _ :=
    hsafety _ (Valuation.ofArgs_fits hs)
  have hpost := (meaning_unfold_current h.nodup h.post h.postTys hs).trans hv
  rw [Term.meaning_implies hb hpost] at hne
  cases a with
  | true => exact hv
  | false => exact absurd rfl hne

/-- A definition on two states, renamed to the parameters and their primed copies, has its value for
the one state and the next. -/
theorem meaning_unfold_next {vars : List Binder}
    (nodup : ((vars ++ vars.map Binder.prime).map (·.name)).Nodup) (length : vars.length = s.length)
    (length' : vars.length = s'.length) {d : FunDef} (hd : d.Closed)
    (htys : (s ++ s').map Datum.ty = d.params.map (·.ty)) :
    (d.unfold ((vars.map fun b => .id b.name) ++ vars.map fun b => .id (primeName b.name))).meaning
      .empty (.ofArgs (vars ++ vars.map Binder.prime) (s ++ s')) = d.meaning .empty (s ++ s') := by
  have hlength : (vars ++ vars.map Binder.prime).length = (s ++ s').length := by
    simp [length, ← length']
  rw [map_id_append_prime]
  exact hd.meaning_unfold (meanings_params nodup hlength) htys

/-- A transition from a state where the candidate holds leads to one where it does. -/
theorem Checked.step (h : c.Checked) (ht : Term.HasTy [] (.ofBinders c.inv.params) t .bool)
    (hstep : (c.system.condition .step t).NeverFalse)
    (hinv : (c.inv.defineAs t).meaning .empty s = some (.bool true))
    (htrans : c.trans.meaning .empty (s ++ s') = some (.bool true)) :
    (c.inv.defineAs t).meaning .empty s' = some (.bool true) := by
  have hs : s.map Datum.ty = c.inv.params.map (·.ty) := FunDef.map_ty_of_meaning hinv
  have hboth := FunDef.map_ty_of_meaning htrans
  have hs' : s'.map Datum.ty = c.inv.params.map (·.ty) := by
    have happend := hboth.trans h.transTys
    rw [List.map_append, hs] at happend
    exact List.append_cancel_left happend
  have length : c.inv.params.length = s.length := by simpa using congrArg List.length hs.symm
  have length' : c.inv.params.length = s'.length := by simpa using congrArg List.length hs'.symm
  have nodup := nodup_append_prime h.nodup h.clash
  obtain ⟨a, ha, hvalue⟩ := exists_truth ht hs
  obtain rfl : a = true := by simpa [hinv] using hvalue.symm
  obtain ⟨b, hb, hvalue'⟩ := exists_truth ht hs'
  have hfits : (Valuation.ofArgs (c.inv.params ++ c.inv.params.map Binder.prime) (s ++ s')).Fits
      (.ofBinders (c.inv.params ++ c.inv.params.map Binder.prime)) := by
    refine Valuation.ofArgs_fits ?_
    rw [List.map_append, List.map_append, List.map_map, hs, hs']
    rfl
  have hne : ((Term.conj [t, c.trans.unfold _]).implies (t.prime c.inv.params)).meaning .empty
      (.ofArgs (c.inv.params ++ c.inv.params.map Binder.prime) (s ++ s')) ≠ _ := hstep _ hfits
  have hcurrent := (meaning_current nodup length length' ht).trans ha
  have hnext := (meaning_prime nodup length length' ht).trans hb
  have hrelation := (meaning_unfold_next nodup length length' h.trans hboth).trans htrans
  rw [Term.meaning_implies (Term.meaning_conj hcurrent hrelation) hnext] at hne
  cases b with
  | true => exact hvalue'
  | false => exact absurd rfl hne

/-- If no condition is ever false, the candidate holds in all states of every run from the
precondition, and the postcondition holds at its end. -/
theorem Checked.invariant (h : c.Checked) (ht : Term.HasTy [] (.ofBinders c.inv.params) t .bool)
    (hconditions : ∀ condition ∈ c.system.conditions t, condition.NeverFalse)
    (states : Nat → List Datum) (n : Nat)
    (hpre : c.pre.meaning .empty (states 0) = some (.bool true))
    (htrans : ∀ i < n, c.trans.meaning .empty (states i ++ states (i + 1)) = some (.bool true)) :
    (∀ i ≤ n, (c.inv.defineAs t).meaning .empty (states i) = some (.bool true)) ∧
      c.post.meaning .empty (states n) = some (.bool true) := by
  have hkind (kind : ConditionKind) : (c.system.condition kind t).NeverFalse :=
    hconditions _ (TransitionSystem.mem_conditions.2 ⟨kind, rfl⟩)
  have hinv : ∀ i ≤ n, (c.inv.defineAs t).meaning .empty (states i) = some (.bool true) := by
    intro i hi
    induction i with
    | zero => exact h.init ht (hkind .init) hpre
    | succ i ih => exact h.step ht (hkind .step) (ih (by omega)) (htrans i (by omega))
  exact ⟨hinv, h.safety ht (hkind .safety) (hinv n (Nat.le_refl n))⟩

end InvConstraint

end InvariantSearch
