import InvariantSearch.Proofs.Typing
import InvariantSearch.Term.Eval

/-!
# The meaning of terms over the integers

`Term.meaning` reads a term over the unbounded integers. Connectives are total functions of their
operands: no operand is skipped, and a term without a sort may have no meaning. Functions are read
by an `Interpretation` and variables by a `Valuation`.

A well-sorted term has a meaning of its sort under every valuation that gives the variables values
of their sorts (`HasTy.exists_meaning`). Evaluation in words agrees with the meaning wherever both
are defined (`meaning_eq_of_eval`): a word result is never wrapped. Substitution is a change of the
valuation (`HasTy.meaning_subst`).
-/

namespace InvariantSearch

/-- A value over the unbounded integers. -/
inductive Datum where
  | bool (b : Bool)
  | int (n : Int)
  deriving DecidableEq

namespace Datum

/-- The sort of a value. -/
def ty : Datum → Ty
  | .bool _ => .bool
  | .int _ => .int

/-- The truth value, if there is one. -/
def truth? : Datum → Option Bool
  | .bool b => some b
  | .int _ => none

theorem exists_bool {v : Datum} (h : v.ty = .bool) : ∃ b, v = .bool b := by
  cases v with
  | bool b => exact ⟨b, rfl⟩
  | int n => cases h

theorem exists_int {v : Datum} (h : v.ty = .int) : ∃ n, v = .int n := by
  cases v with
  | bool b => cases h
  | int n => exact ⟨n, rfl⟩

end Datum

/-- The value that a word or a truth value stands for. -/
def Value.datum : Value → Datum
  | .bool b => .bool b
  | .int i => .int i.toInt

@[simp] theorem Value.datum_ty (v : Value) : v.datum.ty = v.ty := by
  cases v <;> rfl

theorem Value.datum_inj {v w : Value} (h : v.datum = w.datum) : v = w := by
  cases v <;> cases w <;> simp_all [Value.datum, Int64.toInt_inj]

/-- Values of variables. -/
abbrev Valuation := String → Option Datum

/-- The valuation gives every variable in scope a value of its sort. -/
def Valuation.Fits (ρ : Valuation) (ctx : Context) : Prop :=
  ∀ x ty, ctx x = some ty → ∃ v, ρ x = some v ∧ v.ty = ty

/-- Functions on values. -/
abbrev Interpretation := String → List Datum → Option Datum

/-- The interpretation without functions. -/
def Interpretation.empty : Interpretation := fun _ _ => none

/-- The interpretation gives every function in scope a value of its sort for arguments of the sorts
of its parameters. -/
def Interpretation.Fits (I : Interpretation) (sig : Signature) : Prop :=
  ∀ f decl vs, sig.find? f = some decl → vs.map Datum.ty = decl.params →
    ∃ v, I f vs = some v ∧ v.ty = decl.ret

theorem Interpretation.empty_fits : Interpretation.empty.Fits [] := by
  intro f decl vs h
  simp [Signature.find?] at h

/-! ## Operators -/

/-- The operator on values. -/
def UnaryOp.exact : UnaryOp → Datum → Option Datum
  | .not, .bool b => some (.bool !b)
  | .neg, .int n => some (.int (-n))
  | _, _ => none

/-- The operator on values; equality is that of values of one sort. -/
def BinaryOp.exact : BinaryOp → Datum → Datum → Option Datum
  | .equals, v, w => if v.ty = w.ty then some (.bool (v = w)) else none
  | .implies, .bool b, .bool c => some (.bool (!b || c))
  | .implies, _, _ => none

/-- The operator on truth values. -/
def NaryOp.holds : NaryOp → List Bool → Bool
  | .and, bs => bs.all fun b => b
  | .or, bs => bs.any fun b => b

/-- The operator on values. -/
def NaryOp.exact (op : NaryOp) (vs : List Datum) : Option Datum :=
  (vs.mapM Datum.truth?).map fun bs => .bool (op.holds bs)

theorem NaryOp.exact_map_bool (op : NaryOp) (bs : List Bool) :
    op.exact (bs.map .bool) = some (.bool (op.holds bs)) := by
  have h : (bs.map Datum.bool).mapM Datum.truth? = some bs := by
    induction bs with
    | nil => rfl
    | cons b bs ih => simp [List.mapM_cons, Datum.truth?, ih]
  rw [NaryOp.exact, h, Option.map_some]

theorem truths_eq_some {vs : List Datum} {bs : List Bool} (h : vs.mapM Datum.truth? = some bs) :
    vs = bs.map .bool := by
  induction vs generalizing bs with
  | nil =>
    obtain rfl := Option.some.inj h
    rfl
  | cons v vs ih =>
    rw [List.mapM_cons] at h
    obtain ⟨b, hb, h⟩ := Option.bind_eq_some_iff.1 h
    obtain ⟨bs, hbs, h⟩ := Option.bind_eq_some_iff.1 h
    obtain rfl := Option.some.inj h
    cases v with
    | bool c =>
      obtain rfl := Option.some.inj hb
      rw [ih hbs, List.map_cons]
    | int n => cases hb

/-- The operation on values. -/
def ArithOp.exact (op : ArithOp) : Datum → Datum → Option Datum
  | .int m, .int n => some (.int (op.apply m n))
  | _, _ => none

/-- The relation between values. -/
def Comparison.exact (rel : Comparison) : Datum → Datum → Option Datum
  | .int m, .int n => some (.bool (rel.holds m n))
  | _, _ => none

/-- The choice between two values of one sort. -/
def Datum.choose : Datum → Datum → Datum → Option Datum
  | .bool b, v, w => if v.ty = w.ty then some (if b then v else w) else none
  | .int _, _, _ => none

namespace Term

mutual

/-- The value of a term over the unbounded integers. -/
def meaning (I : Interpretation) (ρ : Valuation) : Term → Option Datum
  | .bool b => some (.bool b)
  | .int i => some (.int i.toInt)
  | .id x => ρ x
  | .app f ts => (meanings I ρ ts).bind (I f)
  | .unary op t => (meaning I ρ t).bind op.exact
  | .binary op s t => (meaning I ρ s).bind fun v => (meaning I ρ t).bind (op.exact v)
  | .nary op ts => (meanings I ρ ts).bind op.exact
  | .arith op s t => (meaning I ρ s).bind fun v => (meaning I ρ t).bind (op.exact v)
  | .compare rel s t => (meaning I ρ s).bind fun v => (meaning I ρ t).bind (rel.exact v)
  | .ite c t e =>
    (meaning I ρ c).bind fun b =>
      (meaning I ρ t).bind fun v => (meaning I ρ e).bind (b.choose v)

/-- The values of all terms of a list. -/
def meanings (I : Interpretation) (ρ : Valuation) : List Term → Option (List Datum)
  | [] => some []
  | t :: ts => (meaning I ρ t).bind fun v => (meanings I ρ ts).map (v :: ·)

end

variable {sig : Signature} {ctx ctx' : Context} {I I' : Interpretation} {ρ ρ' : Valuation}

theorem meanings_map (f : Term → Term) {ts : List Term}
    (h : ∀ t ∈ ts, meaning I ρ (f t) = meaning I' ρ' t) :
    meanings I ρ (ts.map f) = meanings I' ρ' ts := by
  induction ts with
  | nil => rfl
  | cons t ts ih =>
    rw [List.map_cons, meanings, meanings, h t (by simp), ih fun s hs => h s (by simp [hs])]

theorem meanings_congr {ts : List Term} (h : ∀ t ∈ ts, meaning I ρ t = meaning I' ρ' t) :
    meanings I ρ ts = meanings I' ρ' ts := by
  simpa using meanings_map (fun t => t) h

theorem length_of_meanings {ts : List Term} {vs : List Datum} (h : meanings I ρ ts = some vs) :
    vs.length = ts.length := by
  induction ts generalizing vs with
  | nil =>
    obtain rfl := Option.some.inj h
    rfl
  | cons t ts ih =>
    obtain ⟨v, -, h⟩ := Option.bind_eq_some_iff.1 h
    obtain ⟨us, hus, rfl⟩ := Option.map_eq_some_iff.1 h
    simp [ih hus]

theorem meaning_of_mem_zip {ts : List Term} {vs : List Datum} (h : meanings I ρ ts = some vs)
    {t : Term} {v : Datum} (hmem : (t, v) ∈ ts.zip vs) : meaning I ρ t = some v := by
  induction ts generalizing vs with
  | nil => simp at hmem
  | cons s ts ih =>
    obtain ⟨u, hu, h⟩ := Option.bind_eq_some_iff.1 h
    obtain ⟨us, hus, rfl⟩ := Option.map_eq_some_iff.1 h
    rcases List.mem_cons.1 hmem with heq | hmem
    · obtain ⟨rfl, rfl⟩ := Prod.mk.inj heq
      exact hu
    · exact ih hus hmem

theorem meanings_eq_some {ts : List Term} {vs : List Datum} (length : ts.length = vs.length)
    (h : ∀ p ∈ ts.zip vs, meaning I ρ p.1 = some p.2) : meanings I ρ ts = some vs := by
  induction ts generalizing vs with
  | nil =>
    obtain rfl := List.length_eq_zero_iff.1 length.symm
    rfl
  | cons t ts ih =>
    cases vs with
    | nil => cases length
    | cons v vs =>
      rw [List.zip_cons_cons, List.forall_mem_cons] at h
      rw [meanings, h.1, ih (Nat.succ.inj length) h.2]
      rfl

theorem meanings_append {ss ts : List Term} {us vs : List Datum} (hs : meanings I ρ ss = some us)
    (ht : meanings I ρ ts = some vs) : meanings I ρ (ss ++ ts) = some (us ++ vs) := by
  induction ss generalizing us with
  | nil =>
    obtain rfl := Option.some.inj hs
    exact ht
  | cons s ss ih =>
    obtain ⟨u, hu, hs⟩ := Option.bind_eq_some_iff.1 hs
    obtain ⟨us, hus, rfl⟩ := Option.map_eq_some_iff.1 hs
    rw [List.cons_append, meanings, hu, ih hus]
    rfl

/-! ## Well-sorted terms -/

/-- Terms of the given sorts that each have a meaning have values of those sorts. -/
theorem exists_meanings {tys : List Ty} {ts : List Term} (length : tys.length = ts.length)
    (h : ∀ p ∈ tys.zip ts, ∃ v, meaning I ρ p.2 = some v ∧ v.ty = p.1) :
    ∃ vs, meanings I ρ ts = some vs ∧ vs.map Datum.ty = tys := by
  induction tys generalizing ts with
  | nil =>
    obtain rfl := List.length_eq_zero_iff.1 length.symm
    exact ⟨[], rfl, rfl⟩
  | cons ty tys ih =>
    cases ts with
    | nil => simp at length
    | cons t ts =>
      obtain ⟨v, hv, hty⟩ := h (ty, t) (by simp)
      obtain ⟨vs, hvs, htys⟩ := ih (by simpa using length) fun p hp => h p (by simp [hp])
      exact ⟨v :: vs, by simp [meanings, hv, hvs], by simp [hty, htys]⟩

/-- Formulas that each have a truth value have a list of truth values. -/
theorem exists_truths {ts : List Term}
    (h : ∀ t ∈ ts, ∃ v, meaning I ρ t = some v ∧ v.ty = .bool) :
    ∃ bs : List Bool, meanings I ρ ts = some (bs.map .bool) := by
  induction ts with
  | nil => exact ⟨[], rfl⟩
  | cons t ts ih =>
    obtain ⟨v, hv, hty⟩ := h t (by simp)
    obtain ⟨b, rfl⟩ := Datum.exists_bool hty
    obtain ⟨bs, hbs⟩ := ih fun s hs => h s (by simp [hs])
    exact ⟨b :: bs, by simp [meanings, hv, hbs]⟩

/-- A well-sorted term has a value of its sort. -/
theorem HasTy.exists_meaning {t : Term} {ty : Ty} (h : HasTy sig ctx t ty) (hI : I.Fits sig)
    (hρ : ρ.Fits ctx) : ∃ v, t.meaning I ρ = some v ∧ v.ty = ty := by
  induction h with
  | bool b => exact ⟨.bool b, rfl, rfl⟩
  | int i => exact ⟨.int i.toInt, rfl, rfl⟩
  | id h => exact hρ _ _ h
  | @app f decl args h arity _ ih =>
    obtain ⟨vs, hvs, htys⟩ := exists_meanings arity ih
    obtain ⟨v, hv, hty⟩ := hI f decl vs h htys
    exact ⟨v, by simp [meaning, hvs, hv], hty⟩
  | not _ ih =>
    obtain ⟨v, hv, hty⟩ := ih
    obtain ⟨b, rfl⟩ := Datum.exists_bool hty
    exact ⟨.bool !b, by simp [meaning, hv, UnaryOp.exact], rfl⟩
  | neg _ ih =>
    obtain ⟨v, hv, hty⟩ := ih
    obtain ⟨n, rfl⟩ := Datum.exists_int hty
    exact ⟨.int (-n), by simp [meaning, hv, UnaryOp.exact], rfl⟩
  | equals _ _ ihs iht =>
    obtain ⟨v, hv, hty⟩ := ihs
    obtain ⟨w, hw, hty'⟩ := iht
    exact ⟨.bool (v = w), by simp [meaning, hv, hw, BinaryOp.exact, hty, hty'], rfl⟩
  | implies _ _ ihs iht =>
    obtain ⟨v, hv, hty⟩ := ihs
    obtain ⟨w, hw, hty'⟩ := iht
    obtain ⟨b, rfl⟩ := Datum.exists_bool hty
    obtain ⟨c, rfl⟩ := Datum.exists_bool hty'
    exact ⟨.bool (!b || c), by simp [meaning, hv, hw, BinaryOp.exact], rfl⟩
  | @nary op ts _ _ ih =>
    obtain ⟨bs, hbs⟩ := exists_truths ih
    exact ⟨.bool (op.holds bs), by simp [meaning, hbs, NaryOp.exact_map_bool], rfl⟩
  | @arith op s t _ _ ihs iht =>
    obtain ⟨v, hv, hty⟩ := ihs
    obtain ⟨w, hw, hty'⟩ := iht
    obtain ⟨m, rfl⟩ := Datum.exists_int hty
    obtain ⟨n, rfl⟩ := Datum.exists_int hty'
    exact ⟨.int (op.apply m n), by simp [meaning, hv, hw, ArithOp.exact], rfl⟩
  | @compare rel s t _ _ ihs iht =>
    obtain ⟨v, hv, hty⟩ := ihs
    obtain ⟨w, hw, hty'⟩ := iht
    obtain ⟨m, rfl⟩ := Datum.exists_int hty
    obtain ⟨n, rfl⟩ := Datum.exists_int hty'
    exact ⟨.bool (rel.holds m n), by simp [meaning, hv, hw, Comparison.exact], rfl⟩
  | ite _ _ _ ihc iht ihe =>
    obtain ⟨u, hu, hbool⟩ := ihc
    obtain ⟨v, hv, hty⟩ := iht
    obtain ⟨w, hw, hty'⟩ := ihe
    obtain ⟨b, rfl⟩ := Datum.exists_bool hbool
    refine ⟨if b then v else w, by simp [meaning, hu, hv, hw, Datum.choose, hty, hty'], ?_⟩
    cases b <;> simp [hty, hty']

/-- The meaning of a well-sorted term depends on the variables and functions in scope alone. -/
theorem HasTy.meaning_congr {t : Term} {ty : Ty} (h : HasTy sig ctx t ty)
    (hI : ∀ f decl, sig.find? f = some decl → I f = I' f)
    (hρ : ∀ x ty, ctx x = some ty → ρ x = ρ' x) : t.meaning I ρ = t.meaning I' ρ' := by
  induction h with
  | bool | int => rfl
  | id h => exact hρ _ _ h
  | @app f decl args h arity _ ih =>
    rw [meaning, meaning, hI f decl h, meanings_congr fun t ht => ?_]
    obtain ⟨p, hp, rfl⟩ := exists_mem_zip arity ht
    exact ih p hp
  | nary _ _ ih => rw [meaning, meaning, meanings_congr ih]
  | not _ ih | neg _ ih => rw [meaning, meaning, ih]
  | equals _ _ ihs iht | implies _ _ ihs iht | arith _ _ ihs iht | compare _ _ ihs iht =>
    rw [meaning, meaning, ihs, iht]
  | ite _ _ _ ihc iht ihe => rw [meaning, meaning, ihc, iht, ihe]

/-! ## Substitution and calls -/

mutual

/-- Substituting is to read the variables as the terms that stand for them. -/
theorem meaning_subst (σ : Substitution) : (t : Term) →
    (t.subst σ).meaning I ρ = t.meaning I fun x => ((σ x).getD (.id x)).meaning I ρ
  | .bool _ | .int _ | .id _ => rfl
  | .app f ts | .nary f ts => by rw [subst, meaning, meaning, meanings_substAll σ ts]
  | .unary _ t => by rw [subst, meaning, meaning, meaning_subst σ t]
  | .binary _ s t | .arith _ s t | .compare _ s t => by
    rw [subst, meaning, meaning, meaning_subst σ s, meaning_subst σ t]
  | .ite c t e => by
    rw [subst, meaning, meaning, meaning_subst σ c, meaning_subst σ t, meaning_subst σ e]

theorem meanings_substAll (σ : Substitution) : (ts : List Term) →
    meanings I ρ (substAll σ ts) = meanings I (fun x => ((σ x).getD (.id x)).meaning I ρ) ts
  | [] => rfl
  | t :: ts => by rw [substAll, meanings, meanings, meaning_subst σ t, meanings_substAll σ ts]

end

theorem meanings_map_of_some (f : Term → Term) {ts : List Term} {vs : List Datum}
    (h : ∀ t ∈ ts, ∀ v, meaning I' ρ' t = some v → meaning I ρ (f t) = some v)
    (hvs : meanings I' ρ' ts = some vs) : meanings I ρ (ts.map f) = some vs := by
  induction ts generalizing vs with
  | nil => exact hvs
  | cons t ts ih =>
    obtain ⟨v, hv, hvs⟩ := Option.bind_eq_some_iff.1 hvs
    obtain ⟨us, hus, rfl⟩ := Option.map_eq_some_iff.1 hvs
    rw [List.forall_mem_cons] at h
    rw [List.map_cons, meanings, h.1 v hv, ih h.2 hus]
    rfl

/-- Where calls are replaced by terms that have the values of the calls, a term that has a value
keeps it. -/
theorem HasTy.meaning_mapCalls {sig' : Signature} {call : String → List Term → Term} {t : Term}
    {ty : Ty} (h : HasTy sig ctx t ty)
    (typed : ∀ f decl args, sig.find? f = some decl → decl.params.length = args.length →
      (∀ p ∈ decl.params.zip args, HasTy sig' ctx p.2 p.1) → HasTy sig' ctx (call f args) decl.ret)
    (hcall : ∀ f decl args vs v, sig.find? f = some decl → decl.params.length = args.length →
      (∀ p ∈ decl.params.zip args, HasTy sig' ctx p.2 p.1) → meanings I ρ args = some vs →
      I' f vs = some v → (call f args).meaning I ρ = some v)
    {v : Datum} (hv : t.meaning I' ρ = some v) : (t.mapCalls call).meaning I ρ = some v := by
  induction h generalizing v with
  | bool | int | id => exact hv
  | @app f decl args h arity hargs ih =>
    obtain ⟨vs, hvs, hv⟩ := Option.bind_eq_some_iff.1 hv
    have sorted : ∀ p ∈ decl.params.zip (args.map (Term.mapCalls call)), HasTy sig' ctx p.2 p.1 :=
      forall_mem_zip_map fun q hq => (hargs q hq).mapCalls typed
    have hmap : meanings I ρ (args.map (Term.mapCalls call)) = some vs := by
      refine meanings_map_of_some _ (fun t ht v hv => ?_) hvs
      obtain ⟨p, hp, rfl⟩ := exists_mem_zip arity ht
      exact ih p hp hv
    rw [Term.mapCalls, mapCallsAll_eq_map]
    exact hcall f decl _ vs v h (by simpa using arity) sorted hmap hv
  | @nary op ts _ _ ih =>
    obtain ⟨vs, hvs, hv⟩ := Option.bind_eq_some_iff.1 hv
    have hmap := meanings_map_of_some (Term.mapCalls call) (fun t ht v => ih t ht) hvs
    rw [Term.mapCalls, mapCallsAll_eq_map, meaning, hmap]
    exact hv
  | not _ ih | neg _ ih =>
    obtain ⟨u, hu, hv⟩ := Option.bind_eq_some_iff.1 hv
    rw [Term.mapCalls, meaning, ih hu]
    exact hv
  | equals _ _ ihs iht | implies _ _ ihs iht | arith _ _ ihs iht | compare _ _ ihs iht =>
    obtain ⟨u, hu, hv⟩ := Option.bind_eq_some_iff.1 hv
    obtain ⟨w, hw, hv⟩ := Option.bind_eq_some_iff.1 hv
    rw [Term.mapCalls, meaning, ihs hu, iht hw]
    exact hv
  | ite _ _ _ ihc iht ihe =>
    obtain ⟨b, hb, hv⟩ := Option.bind_eq_some_iff.1 hv
    obtain ⟨u, hu, hv⟩ := Option.bind_eq_some_iff.1 hv
    obtain ⟨w, hw, hv⟩ := Option.bind_eq_some_iff.1 hv
    rw [Term.mapCalls, meaning, ihc hb, iht hu, ihe hw]
    exact hv

/-! ## Evaluation in words -/

theorem asBool_eq_ok_iff {v : Value} {b : Bool} : v.asBool = .ok b ↔ v = .bool b := by
  cases v <;> simp [Value.asBool]

theorem asInt_eq_ok_iff {v : Value} {i : Int64} : v.asInt = .ok i ↔ v = .int i := by
  cases v <;> simp [Value.asInt]

theorem ofInt_eq_ok {n : Int} {v : Value} (h : Value.ofInt n = .ok v) : v.datum = .int n := by
  unfold Value.ofInt at h
  split at h
  next i hi =>
    obtain rfl := Except.ok.inj h
    rw [Value.datum, fitWord?_eq_some_iff.1 hi]
  next => cases h

theorem BinaryOp.exact_equals_datum {a b : Value} (h : a.ty = b.ty) :
    BinaryOp.exact .equals a.datum b.datum = some (.bool (a = b)) := by
  have heq : a.datum = b.datum ↔ a = b := ⟨Value.datum_inj, fun h => h ▸ rfl⟩
  rw [BinaryOp.exact, if_pos (by simpa using h)]
  simp [heq]

theorem truths_cons {b : Bool} {vs : List Datum} {bs : List Bool}
    (h : (Value.datum (.bool b) :: vs).mapM Datum.truth? = some bs) :
    ∃ cs, vs.mapM Datum.truth? = some cs ∧ b :: cs = bs := by
  rw [List.mapM_cons] at h
  obtain ⟨c, hc, h⟩ := Option.bind_eq_some_iff.1 h
  obtain ⟨cs, hcs, h⟩ := Option.bind_eq_some_iff.1 h
  obtain rfl := Option.some.inj hc
  exact ⟨cs, hcs, Option.some.inj h⟩

mutual

/-- Where evaluation in words has a result and the term has a meaning, they agree. -/
theorem meaning_eq_of_eval {env : String → Option Value}
    (hρ : ∀ x v, env x = some v → ρ x = some v.datum) : (t : Term) → (v : Value) → (w : Datum) →
    t.eval env = .ok v → t.meaning I ρ = some w → w = v.datum
  | .bool b, v, w, h, hw => by
    obtain rfl := Except.ok.inj h
    exact (Option.some.inj hw).symm
  | .int i, v, w, h, hw => by
    obtain rfl := Except.ok.inj h
    exact (Option.some.inj hw).symm
  | .id x, v, w, h, hw => by
    simp only [eval] at h
    split at h
    next u hu =>
      obtain rfl := Except.ok.inj h
      rw [meaning, hρ x u hu] at hw
      exact (Option.some.inj hw).symm
    next => cases h
  | .app f ts, v, w, h, _ => by simp [eval] at h
  | .unary .not t, v, w, h, hw => by
    simp only [eval, bind_eq_ok_iff, asBool_eq_ok_iff] at h
    obtain ⟨_, ht, b, rfl, h⟩ := h
    obtain rfl := Except.ok.inj h
    obtain ⟨u, hu, hw⟩ := Option.bind_eq_some_iff.1 hw
    obtain rfl := meaning_eq_of_eval hρ t _ u ht hu
    exact (Option.some.inj hw).symm
  | .unary .neg t, v, w, h, hw => by
    simp only [eval, bind_eq_ok_iff, asInt_eq_ok_iff] at h
    obtain ⟨_, ht, i, rfl, h⟩ := h
    obtain ⟨u, hu, hw⟩ := Option.bind_eq_some_iff.1 hw
    obtain rfl := meaning_eq_of_eval hρ t _ u ht hu
    rw [ofInt_eq_ok h]
    exact (Option.some.inj hw).symm
  | .binary .equals s t, v, w, h, hw => by
    simp only [eval, bind_eq_ok_iff] at h
    obtain ⟨a, hs, b, ht, h⟩ := h
    obtain ⟨x, hx, hw⟩ := Option.bind_eq_some_iff.1 hw
    obtain ⟨y, hy, hw⟩ := Option.bind_eq_some_iff.1 hw
    obtain rfl := meaning_eq_of_eval hρ s _ x hs hx
    obtain rfl := meaning_eq_of_eval hρ t _ y ht hy
    split at h
    next hty =>
      obtain rfl := Except.ok.inj h
      rw [BinaryOp.exact_equals_datum hty] at hw
      exact (Option.some.inj hw).symm
    next => cases h
  | .binary .implies s t, v, w, h, hw => by
    simp only [eval, bind_eq_ok_iff, asBool_eq_ok_iff] at h
    obtain ⟨_, hs, b, rfl, h⟩ := h
    obtain ⟨x, hx, hw⟩ := Option.bind_eq_some_iff.1 hw
    obtain ⟨y, hy, hw⟩ := Option.bind_eq_some_iff.1 hw
    obtain rfl := meaning_eq_of_eval hρ s _ x hs hx
    cases b with
    | true =>
      simp only [if_true, bind_eq_ok_iff, asBool_eq_ok_iff] at h
      obtain ⟨_, ht, c, rfl, h⟩ := h
      obtain rfl := Except.ok.inj h
      obtain rfl := meaning_eq_of_eval hρ t _ y ht hy
      exact (Option.some.inj hw).symm
    | false =>
      obtain rfl := Except.ok.inj h
      cases y with
      | bool c => exact (Option.some.inj hw).symm
      | int n => cases hw
  | .nary op ts, v, w, h, hw => by
    rw [eval_nary] at h
    obtain ⟨b, hb, h⟩ := bind_eq_ok_iff.1 h
    obtain rfl := Except.ok.inj h
    obtain ⟨vs, hvs, hw⟩ := Option.bind_eq_some_iff.1 hw
    obtain ⟨bs, hbs, rfl⟩ := Option.map_eq_some_iff.1 hw
    rw [Value.datum, holds_eq_of_ofResults hρ op ts b vs bs hb hvs hbs]
  | .arith op s t, v, w, h, hw => by
    simp only [eval, bind_eq_ok_iff, asInt_eq_ok_iff] at h
    obtain ⟨_, hs, i, rfl, _, ht, j, rfl, h⟩ := h
    obtain ⟨x, hx, hw⟩ := Option.bind_eq_some_iff.1 hw
    obtain ⟨y, hy, hw⟩ := Option.bind_eq_some_iff.1 hw
    obtain rfl := meaning_eq_of_eval hρ s _ x hs hx
    obtain rfl := meaning_eq_of_eval hρ t _ y ht hy
    rw [ofInt_eq_ok h]
    exact (Option.some.inj hw).symm
  | .compare rel s t, v, w, h, hw => by
    simp only [eval, bind_eq_ok_iff, asInt_eq_ok_iff] at h
    obtain ⟨_, hs, i, rfl, _, ht, j, rfl, h⟩ := h
    obtain rfl := Except.ok.inj h
    obtain ⟨x, hx, hw⟩ := Option.bind_eq_some_iff.1 hw
    obtain ⟨y, hy, hw⟩ := Option.bind_eq_some_iff.1 hw
    obtain rfl := meaning_eq_of_eval hρ s _ x hs hx
    obtain rfl := meaning_eq_of_eval hρ t _ y ht hy
    exact (Option.some.inj hw).symm
  | .ite c t e, v, w, h, hw => by
    simp only [eval, bind_eq_ok_iff, asBool_eq_ok_iff] at h
    obtain ⟨_, hc, b, rfl, h⟩ := h
    obtain ⟨x, hx, hw⟩ := Option.bind_eq_some_iff.1 hw
    obtain ⟨y, hy, hw⟩ := Option.bind_eq_some_iff.1 hw
    obtain ⟨z, hz, hw⟩ := Option.bind_eq_some_iff.1 hw
    obtain rfl := meaning_eq_of_eval hρ c _ x hc hx
    simp only [Value.datum, Datum.choose, Option.ite_none_right_eq_some, Option.some.injEq] at hw
    obtain ⟨-, rfl⟩ := hw
    cases b with
    | true => exact meaning_eq_of_eval hρ t v y h hy
    | false => exact meaning_eq_of_eval hρ e v z h hz

/-- Truth values that are computed agree with the operator on all truth values. -/
theorem holds_eq_of_ofResults {env : String → Option Value}
    (hρ : ∀ x v, env x = some v → ρ x = some v.datum) (op : NaryOp) : (ts : List Term) →
    (b : Bool) → (vs : List Datum) → (bs : List Bool) → op.ofResults (ts.map (eval env)) = .ok b →
    meanings I ρ ts = some vs → vs.mapM Datum.truth? = some bs → op.holds bs = b
  | [], b, vs, bs, h, hvs, hbs => by
    obtain rfl := Except.ok.inj h
    obtain rfl := Option.some.inj hvs
    obtain rfl := Option.some.inj hbs
    cases op <;> rfl
  | t :: ts, b, vs, bs, h, hvs, hbs => by
    simp only [List.map_cons, NaryOp.ofResults, bind_eq_ok_iff, asBool_eq_ok_iff] at h
    obtain ⟨_, ht, c, rfl, h⟩ := h
    obtain ⟨u, hu, hvs⟩ := Option.bind_eq_some_iff.1 hvs
    obtain ⟨us, hus, rfl⟩ := Option.map_eq_some_iff.1 hvs
    obtain rfl := meaning_eq_of_eval hρ t _ u ht hu
    obtain ⟨cs, hcs, rfl⟩ := truths_cons hbs
    split at h
    next hdecisive =>
      obtain rfl := Except.ok.inj h
      subst hdecisive
      cases op <;> rfl
    next hdecisive =>
      have hrest := holds_eq_of_ofResults hρ op ts b us cs h hus hcs
      cases op <;> simp_all [NaryOp.holds, NaryOp.decisive]

end

end Term

end InvariantSearch
