import InvariantSearch.Proofs.Meaning
import InvariantSearch.Proofs.Searching

/-!
# Exhausted searches

A condition is valid if it is true for all values of its variables, over the unbounded integers.
An oracle that gives true counterexamples never leads a search astray: a stored counterexample
refutes a candidate only if one of its conditions is not valid (`not_valid_of_refutes`), since
evaluation in words gives the right value or none. So a search that is exhausted has passed over no
inductive invariant (`no_invariant_of_exhausted`).
-/

namespace InvariantSearch

variable {σ : Type}

/-! ## Valid conditions -/

/-- The condition is true for all values of its variables, where `I` reads the functions. -/
def Condition.Valid (I : Interpretation) (c : Condition) : Prop :=
  ∀ ρ : Valuation, ρ.Fits (.ofBinders c.vars) → c.formula.meaning I ρ = some (.bool true)

namespace Assignment

/-- The values over the unbounded integers. -/
def valuation (a : Assignment) : Valuation := fun x => (a.get? x).map Value.datum

/-- The assignment gives every variable a value of its sort. -/
def Covers (a : Assignment) (vars : List Binder) : Prop :=
  ∀ b ∈ vars, ∃ v, a.get? b.name = some v ∧ v.ty = b.ty

theorem Covers.fits {a : Assignment} {vars : List Binder} (h : a.Covers vars) :
    a.valuation.Fits (.ofBinders vars) := by
  intro x ty hx
  obtain ⟨b, hb, rfl, rfl⟩ := Context.exists_of_ofBinders hx
  obtain ⟨v, hv, hty⟩ := h b hb
  exact ⟨v.datum, by rw [valuation, hv, Option.map_some], by rw [Value.datum_ty, hty]⟩

end Assignment

/-- The counterexamples of the oracle are true: each gives every variable of the condition a value
of its sort, and makes the condition false. -/
def Oracle.Refutes (I : Interpretation) (oracle : Oracle σ) : Prop :=
  ∀ c a, oracle.Answers c (.invalid a) →
    a.Covers c.vars ∧ c.formula.meaning I a.valuation = some (.bool false)

/-- The oracle that tries one assignment alone. -/
def Oracle.trying (a : Assignment) : Oracle Unit := .ofFunction fun c =>
  if (∀ b ∈ c.vars, (a.get? b.name).map Value.ty = some b.ty) ∧
      c.formula.meaning .empty a.valuation = some (.bool false) then .invalid a
  else .valid

theorem Oracle.refutes_trying (a : Assignment) : (Oracle.trying a).Refutes .empty := by
  rintro c a' ⟨q, hq⟩
  have hanswer : (if (∀ b ∈ c.vars, (a.get? b.name).map Value.ty = some b.ty) ∧
      c.formula.meaning .empty a.valuation = some (.bool false) then Decision.invalid a
      else .valid) = .invalid a' := hq
  split at hanswer
  next h =>
    obtain rfl := Decision.invalid.inj hanswer
    exact ⟨fun b hb => Option.map_eq_some_iff.1 (h.1 b hb), h.2⟩
  next => cases hanswer

variable {I : Interpretation} {ts : TransitionSystem}

theorem not_valid_of_false {c : Condition} {a : Assignment} (hcovers : a.Covers c.vars)
    (hfalse : c.formula.meaning I a.valuation = some (.bool false)) : ¬c.Valid I := by
  intro hvalid
  have htrue := hvalid a.valuation hcovers.fits
  rw [hfalse] at htrue
  cases htrue

/-! ## Stored counterexamples -/

/-- The conditions of a kind on two candidates have the same variables. -/
theorem TransitionSystem.condition_vars (ts : TransitionSystem) (kind : ConditionKind)
    (t u : Term) : (ts.condition kind t).vars = (ts.condition kind u).vars := by
  cases kind <;> rfl

/-- A formula that is true is not evaluated to "false". It may have no value in words. -/
theorem Term.evalBool_ne_false {t : Term} {a : Assignment}
    (h : t.meaning I a.valuation = some (.bool true)) : t.evalBool a.get? ≠ .ok false := by
  intro hfalse
  obtain ⟨v, heval, hv⟩ := bind_eq_ok_iff.1 hfalse
  obtain rfl := asBool_eq_ok_iff.1 hv
  have hagree : ∀ x v, a.get? x = some v → a.valuation x = some v.datum := by
    intro x v hx
    rw [Assignment.valuation, hx, Option.map_some]
  have heq := meaning_eq_of_eval hagree t _ _ heval h
  simp [Value.datum] at heq

/-- A counterexample that fits the condition refutes a candidate only if the condition is not
valid. -/
theorem not_valid_of_refutes {cex : Counterexample} {t : Term} (h : cex.refutes ts t = true)
    (hcovers : cex.assignment.Covers (ts.condition cex.kind t).vars) :
    ¬(ts.condition cex.kind t).Valid I := by
  intro hvalid
  have hne := Term.evalBool_ne_false (hvalid cex.assignment.valuation hcovers.fits)
  unfold Counterexample.refutes at h
  split at h
  next holds heval =>
    obtain rfl : holds = false := by simpa using h
    exact hne heval
  next => cases h

namespace Search

variable {g : Grammar} {oracle : Oracle σ} {s : Search g} {drawn : List Term}
  {config : SearchConfig} {q : σ}

/-- The store has values for the variables of the conditions on every candidate. -/
theorem Explored.covers (h : s.Explored oracle drawn) (horacle : oracle.Refutes I)
    {cex : Counterexample} (hcex : cex ∈ s.store) (t : Term) :
    cex.assignment.Covers (s.system.condition cex.kind t).vars := by
  obtain ⟨u, hu⟩ := h.stored cex hcex
  rw [s.system.condition_vars cex.kind t u]
  exact (horacle _ _ hu).1

/-- A candidate is ruled out only if one of its conditions is not valid. -/
theorem Explored.not_valid_of_rulesOut (h : s.Explored oracle drawn) (horacle : oracle.Refutes I)
    {cex : Counterexample} (hcex : cex ∈ s.store) {t : Term}
    (hrules : RulesOut oracle s.system cex t) : ¬(s.system.condition cex.kind t).Valid I := by
  rcases hrules with hrefutes | hanswer
  · exact not_valid_of_refutes hrefutes (h.covers horacle hcex t)
  · obtain ⟨hcovers, hfalse⟩ := horacle _ _ hanswer
    exact not_valid_of_false hcovers hfalse

/-- The store admits every inductive invariant. -/
theorem Explored.admits (h : s.Explored oracle drawn) (horacle : oracle.Refutes I) {t : Term}
    (hvalid : ∀ c ∈ s.system.conditions t, c.Valid I) : s.store.admits s.system t = true := by
  cases hviolated : s.store.firstViolated s.system t with
  | none => simp [Store.admits, hviolated]
  | some cex =>
    obtain ⟨hcex, hrefutes⟩ := firstViolated_eq_some hviolated
    have hmem : s.system.condition cex.kind t ∈ s.system.conditions t :=
      TransitionSystem.mem_conditions.2 ⟨cex.kind, rfl⟩
    exact absurd (hvalid _ hmem) (not_valid_of_refutes hrefutes (h.covers horacle hcex t))

/-- When a search is exhausted it has drawn every term within the limit. -/
theorem Explored.mem_drawn (h : s.Explored oracle drawn) (hs : s.state = .exhausted) {t : Term}
    {size : Nat} (hsize : g.minSize Grammar.start t = some size)
    (hlimit : s.enumerator.excludes size = false) : t ∈ drawn :=
  (h.reached.finished (h.exhausted hs)).mem_out hsize hlimit

/-- Let an oracle give true counterexamples. A run that ends goes on by steps to a final state. If a
search that is reached by steps is exhausted, then no term whose smallest derivation is within the
limit is an inductive invariant. The store never refutes an inductive invariant. -/
theorem no_invariant_of_exhausted (ts : TransitionSystem) (g : Grammar) (config : SearchConfig)
    {oracle : Oracle σ} (horacle : oracle.Refutes I) :
    (∀ steps q s q', (new ts g config).run oracle steps q = some (s, q') →
      Reachable oracle ts g config s q' ∧ s.state ≠ .searching) ∧
    (∀ s q, Reachable oracle ts g config s q → s.state = .exhausted →
      ∀ t size, IsLeast {n | g.Derives Grammar.start n t} size →
        (∀ limit, (Enumerator.new g config.maxSize).limit = some limit → size ≤ limit) →
        ∃ c ∈ ts.conditions t, ¬c.Valid I) ∧
    ∀ s q, Reachable oracle ts g config s q →
      ∀ t, (∀ c ∈ ts.conditions t, c.Valid I) → s.store.admits ts t = true := by
  refine ⟨fun steps q s q' hrun => (Reachable.new q).run hrun, ?_, ?_⟩
  · intro s q hs hex t size hsize hlimit
    obtain ⟨drawn, h, rfl, hsame⟩ := hs.explored
    have hincluded : s.enumerator.excludes size = false := by
      rw [Enumerator.excludes_eq_false_iff, hsame]
      exact hlimit
    have hdrawn := h.mem_drawn hex (Grammar.isLeast_minSize.2 hsize) hincluded
    obtain ⟨cex, hcex, hrules⟩ := h.ruledOut (.inr hex) t hdrawn
    refine ⟨s.system.condition cex.kind t, TransitionSystem.mem_conditions.2 ⟨cex.kind, rfl⟩, ?_⟩
    exact h.not_valid_of_rulesOut horacle hcex hrules
  · intro s q hs t hvalid
    obtain ⟨drawn, h, rfl, -⟩ := hs.explored
    exact h.admits horacle hvalid

/-- A counter that begins at zero and is counted up, and that is to stay negative. -/
def risingCounter : TransitionSystem :=
  ⟨[⟨"x", .int⟩], .equals (.id "x") (.int 0),
    .equals (.id "x'") (.arith .add (.id "x") (.int 1)), .compare .lt (.id "x") (.int 0)⟩

/-- The search for an invariant of a rising counter that has one candidate, `true`, finds with the
assignment of zero that this is none, and is exhausted. -/
theorem no_invariant_of_risingCounter : ∃ s,
    (new risingCounter (single [.bool true]) ⟨none, none, none, false⟩).run
      (.trying (.ofList [("x", .int 0)])) 3 () = some (s, ()) ∧
    s.state = .exhausted ∧ ∃ c ∈ risingCounter.conditions (.bool true), ¬c.Valid .empty := by
  have hlimit : (Enumerator.new (single [.bool true]) none).limit = some 1 := by decide +kernel
  have hfirst := Enumerator.next_new (g := single [.bool true]) none
    (r := ⟨.bool true, [], 1⟩) rfl rfl rfl (by rw [Enumerator.excludes, hlimit]; rfl) 1
  obtain ⟨s₁, e, hstep, hstate, hbudget, hnext⟩ : ∃ s₁ e,
      (new risingCounter (single [.bool true]) ⟨none, none, none, false⟩).step
        (.trying (.ofList [("x", .int 0)])) 2 () = some (s₁, ()) ∧
      s₁.state = .searching ∧ s₁.outOfBudget = false ∧ s₁.enumerator.next 1 = some (none, e) :=
    ⟨_, _, step_of_next rfl rfl _ hfirst (), by decide +kernel, by decide +kernel, rfl⟩
  have hrun := (run_of_step rfl hstep).trans ((run_of_step hstate
    (step_of_end hstate hbudget _ hnext ())).trans (run_of_final (by simp) 0 ()))
  obtain ⟨hends, hexhausted, -⟩ := no_invariant_of_exhausted risingCounter (single [.bool true])
    ⟨none, none, none, false⟩ (Oracle.refutes_trying (.ofList [("x", .int 0)]))
  refine ⟨_, hrun, rfl, ?_⟩
  refine hexhausted _ () (hends _ _ _ _ hrun).1 rfl (.bool true) 1 ?_ fun limit h => ?_
  · exact ⟨derives_single (by simp), fun n hn => hn.size_pos⟩
  · obtain rfl := Option.some.inj (hlimit.symm.trans h)
    exact Nat.le_refl 1

end Search

end InvariantSearch
