import InvariantSearch.Proofs.Searching

/-!
# The two modes of a search

A search decides the three conditions on a candidate up to the first that is not valid, or all of
them. The counterexamples that it stores, and so the candidates that it drops without asking, are
different in the two modes. But with an oracle that is consistent (`Consistent`) a candidate is
found exactly if all its conditions are decided to be valid (`process_state`), whatever is stored.
So two searches that differ only in mode and in what they have stored go on alike (`Alike.step`),
and their runs end in the same way (`run_parallel_eq`).
-/

namespace InvariantSearch

/-- Every condition is decided, and none is found valid that is false under an assignment given
against a condition of the same kind. -/
structure Consistent (decide : Condition → Decision) : Prop where
  decided : ∀ c reason, decide c ≠ .unknown reason
  valid : ∀ c c' a, c.kind = c'.kind → decide c' = .invalid a →
    c.formula.evalBool a.get? = .ok false → decide c ≠ .valid

/-- Decides a condition by trying some assignments. -/
def Decision.trying (as : List Assignment) (c : Condition) : Decision :=
  match as.find? fun a => c.formula.evalBool a.get? matches .ok false with
  | some a => .invalid a
  | none => .valid

theorem consistent_trying (as : List Assignment) : Consistent (Decision.trying as) where
  decided c reason h := by
    unfold Decision.trying at h
    split at h <;> cases h
  valid c c' a _ hinvalid hfalse hvalid := by
    unfold Decision.trying at hinvalid hvalid
    split at hinvalid
    next a' ha =>
      obtain rfl := Decision.invalid.inj hinvalid
      split at hvalid
      next => cases hvalid
      next hnone =>
        have hmem := List.mem_of_find?_eq_some ha
        simpa [hfalse] using List.find?_eq_none.1 hnone a' hmem
    next => cases hinvalid

theorem Oracle.answers_ofFunction {decide : Condition → Decision} {c : Condition} {d : Decision} :
    (ofFunction decide).Answers c d ↔ decide c = d :=
  ⟨fun ⟨_, h⟩ => h, fun h => ⟨(), h⟩⟩

namespace Search

variable {g : Grammar} {σ : Type}

/-! ## One candidate -/

/-- Conclusions about a candidate change no more than the store, the state and the counters, and not
how many candidates were drawn. -/
theorem conclude_keeps (s : Search g) (t : Term) (ds : List (ConditionKind × Decision)) :
    (s.conclude t ds).system = s.system ∧ (s.conclude t ds).config = s.config ∧
      (s.conclude t ds).enumerator = s.enumerator ∧
      (s.conclude t ds).stats.candidates = s.stats.candidates := by
  unfold conclude
  dsimp only
  split
  next => exact ⟨rfl, rfl, rfl, rfl⟩
  next => exact ⟨rfl, rfl, rfl, rfl⟩

/-- Every candidate that is processed is counted. -/
theorem process_keeps (oracle : Oracle σ) (s : Search g) (t : Term) (q : σ) :
    (s.process oracle t q).1.system = s.system ∧ (s.process oracle t q).1.config = s.config ∧
      (s.process oracle t q).1.enumerator = s.enumerator ∧
      (s.process oracle t q).1.stats.candidates = s.stats.candidates + 1 := by
  cases hviolated : s.store.firstViolated s.system t with
  | some cex =>
    simp only [process, hviolated]
    exact ⟨rfl, rfl, rfl, rfl⟩
  | none =>
    simp only [process, hviolated]
    exact conclude_keeps _ t _

/-- Where every condition is decided, a candidate is found if there are three decisions and no
counterexample among them. -/
theorem conclude_state (s : Search g) (t : Term) {ds : List (ConditionKind × Decision)}
    (hdecided : firstUnknown ds = none) : (s.conclude t ds).state =
      if ds.length = 3 && (counterexamples ds).isEmpty then .found t else s.state := by
  unfold conclude
  rw [hdecided]

variable {decide : Condition → Decision} {ds : List (ConditionKind × Decision)}
  {cs : List Condition}

theorem firstUnknown_eq_none (h : Consistent decide)
    (hds : (Oracle.ofFunction decide).Decides cs ds) : firstUnknown ds = none := by
  refine List.findSome?_eq_none_iff.2 fun ⟨kind, d⟩ hd => ?_
  obtain ⟨c, -, -, hc⟩ := hds.exists_condition hd
  cases d with
  | valid => rfl
  | invalid a => rfl
  | unknown reason => exact absurd (Oracle.answers_ofFunction.1 hc) (h.decided c reason)

/-- The decisions are all "valid" if all conditions are decided to be, however many were asked. -/
theorem all_valid_iff (hds : (Oracle.ofFunction decide).Decides cs ds) :
    (∀ p ∈ ds, p.2 = .valid) ↔ ∀ c ∈ cs, decide c = .valid := by
  constructor
  · intro hvalid c hc
    exact Oracle.answers_ofFunction.1 ((hds.all_valid hvalid).2 c hc)
  · rintro hvalid ⟨kind, d⟩ hd
    obtain ⟨c, hc, -, hanswer⟩ := hds.exists_condition hd
    exact (Oracle.answers_ofFunction.1 hanswer).symm.trans (hvalid c hc)

theorem found_iff_all_valid {ts : TransitionSystem} {t : Term}
    (hds : (Oracle.ofFunction decide).Decides (ts.conditions t) ds)
    (hdecided : firstUnknown ds = none) :
    (ds.length = 3 && (counterexamples ds).isEmpty) = true ↔ ∀ p ∈ ds, p.2 = .valid := by
  rw [Bool.and_eq_true, decide_eq_true_eq, List.isEmpty_iff]
  constructor
  · rintro ⟨-, hcexs⟩
    exact valid_of_no_counterexamples hdecided hcexs
  · intro hvalid
    refine ⟨(hds.all_valid hvalid).1, List.eq_nil_iff_forall_not_mem.2 fun cex hcex => ?_⟩
    cases hvalid _ (mem_counterexamples.1 hcex)

/-- A candidate that the store refutes has a condition that is not decided to be valid. -/
theorem not_all_valid_of_refuted (h : Consistent decide) {s : Search g}
    (stored : ∀ cex ∈ s.store, ∃ u, (Oracle.ofFunction decide).Answers
      (s.system.condition cex.kind u) (.invalid cex.assignment)) {t : Term} {cex : Counterexample}
    (hviolated : s.store.firstViolated s.system t = some cex) :
    ¬∀ c ∈ s.system.conditions t, decide c = .valid := by
  intro hvalid
  obtain ⟨hcex, hrefutes⟩ := firstViolated_eq_some hviolated
  obtain ⟨u, hu⟩ := stored cex hcex
  have hfalse : (s.system.condition cex.kind t).formula.evalBool cex.assignment.get? =
      .ok false := by
    unfold Counterexample.refutes at hrefutes
    split at hrefutes
    next holds heval => simpa [heval] using hrefutes
    next => cases hrefutes
  refine h.valid _ _ cex.assignment ?_ (Oracle.answers_ofFunction.1 hu) hfalse
    (hvalid _ (TransitionSystem.mem_conditions.2 ⟨cex.kind, rfl⟩))
  rw [TransitionSystem.condition_kind, TransitionSystem.condition_kind]

/-- A candidate is found if all its conditions are decided to be valid, and else the search goes on.
This does not depend on the mode, nor on which counterexamples are stored. -/
theorem process_state (h : Consistent decide) {s : Search g}
    (stored : ∀ cex ∈ s.store, ∃ u, (Oracle.ofFunction decide).Answers
      (s.system.condition cex.kind u) (.invalid cex.assignment)) (t : Term) :
    (s.process (.ofFunction decide) t ()).1.state =
      if ∀ c ∈ s.system.conditions t, decide c = .valid then .found t else s.state := by
  cases hviolated : s.store.firstViolated s.system t with
  | some cex =>
    obtain ⟨stats, hprocess⟩ := process_of_refuted (.ofFunction decide) s hviolated ()
    rw [hprocess, if_neg (not_all_valid_of_refuted h stored hviolated)]
  | none =>
    obtain ⟨stats, ds, hds, hprocess⟩ := process_of_admitted (.ofFunction decide) s hviolated ()
    have hdecided := firstUnknown_eq_none h hds
    rw [hprocess, conclude_state _ t hdecided]
    exact if_congr ((found_iff_all_valid hds hdecided).trans (all_valid_iff hds)) rfl rfl

/-! ## Two searches side by side -/

/-- The two searches are about the same system, have the same limits and no limit on time, and have
come equally far. Their modes and what they have stored may differ. -/
structure Alike (decide : Condition → Decision) (s s' : Search g) : Prop where
  explored : ∃ drawn, s.Explored (.ofFunction decide) drawn
  explored' : ∃ drawn, s'.Explored (.ofFunction decide) drawn
  system : s'.system = s.system
  enumerator : s'.enumerator = s.enumerator
  state : s'.state = s.state
  decided : ∀ kind reason, s.state ≠ .unknown kind reason
  candidates : s'.stats.candidates = s.stats.candidates
  maxIterations : s'.config.maxIterations = s.config.maxIterations
  untimed : s.config.timeout = none
  untimed' : s'.config.timeout = none

variable {s s' : Search g}

theorem alike_new (ts : TransitionSystem) (g : Grammar) {config config' : SearchConfig}
    (hsize : config'.maxSize = config.maxSize)
    (hiterations : config'.maxIterations = config.maxIterations) (huntimed : config.timeout = none)
    (huntimed' : config'.timeout = none) :
    Alike decide (new ts g config) (new ts g config') where
  explored := ⟨[], explored_new _ ts g config⟩
  explored' := ⟨[], explored_new _ ts g config'⟩
  system := rfl
  enumerator := congrArg (Enumerator.new g) hsize
  state := rfl
  decided := by simp [new]
  candidates := rfl
  maxIterations := hiterations
  untimed := huntimed
  untimed' := huntimed'

theorem Alike.outOfBudget_eq (h : Alike decide s s') : s'.outOfBudget = s.outOfBudget := by
  rw [outOfBudget, outOfBudget, h.maxIterations, h.candidates, h.untimed, h.untimed']
  rfl

/-- Two searches that are alike process a candidate alike. -/
theorem Alike.process (h : Alike decide s s') (hdecide : Consistent decide)
    (hs : s.state = .searching) {e : Enumerator g} {ticks : Nat} {t : Term}
    (hnext : s.enumerator.next ticks = some (some t, e)) :
    Alike decide (Search.process (.ofFunction decide) { s with enumerator := e } t ()).1
      (Search.process (.ofFunction decide) { s' with enumerator := e } t ()).1 := by
  obtain ⟨drawn, hexplored⟩ := h.explored
  obtain ⟨drawn', hexplored'⟩ := h.explored'
  have hs' : s'.state = .searching := h.state.trans hs
  obtain ⟨hreached, -, -⟩ := hexplored.reached.next hnext
  obtain ⟨hreached', -, -⟩ := hexplored'.reached.next (h.enumerator ▸ hnext)
  obtain ⟨hsystem, hconfig, henumerator, hcandidates⟩ :=
    process_keeps (.ofFunction decide) { s with enumerator := e } t ()
  obtain ⟨hsystem', hconfig', henumerator', hcandidates'⟩ :=
    process_keeps (.ofFunction decide) { s' with enumerator := e } t ()
  have hstate := process_state hdecide (s := { s with enumerator := e }) hexplored.stored t
  have hstate' := process_state hdecide (s := { s' with enumerator := e }) hexplored'.stored t
  exact
    { explored := ⟨_, (hexplored.process hs hreached ()).1⟩
      explored' := ⟨_, (hexplored'.process hs' hreached' ()).1⟩
      system := by rw [hsystem, hsystem', h.system]
      enumerator := by rw [henumerator, henumerator']
      state := by rw [hstate, hstate', h.system, h.state]
      decided := fun kind reason hunknown => by
        rw [hstate] at hunknown
        split at hunknown
        next => cases hunknown
        next => exact h.decided kind reason hunknown
      candidates := by rw [hcandidates, hcandidates', h.candidates]
      maxIterations := by rw [hconfig, hconfig', h.maxIterations]
      untimed := by rw [hconfig, h.untimed]
      untimed' := by rw [hconfig', h.untimed'] }

/-- Two searches that are alike take the same step, or both take none. -/
theorem Alike.step (h : Alike decide s s') (hdecide : Consistent decide) (ticks : Nat) :
    Option.Rel (fun x y => Alike decide x.1 y.1) (s.step (.ofFunction decide) ticks ())
      (s'.step (.ofFunction decide) ticks ()) := by
  obtain ⟨drawn, hexplored⟩ := h.explored
  obtain ⟨drawn', hexplored'⟩ := h.explored'
  by_cases hs : s.state = .searching
  · have hs' : s'.state = .searching := h.state.trans hs
    cases hbudget : s.outOfBudget with
    | true =>
      have hstep := step_of_outOfBudget hs hbudget (.ofFunction decide) ticks ()
      have hstep' := step_of_outOfBudget hs' (h.outOfBudget_eq.trans hbudget)
        (.ofFunction decide) ticks ()
      obtain ⟨drawn, hnew, -⟩ := hexplored.step hstep
      obtain ⟨drawn', hnew', -⟩ := hexplored'.step hstep'
      rw [hstep, hstep']
      exact .some { h with
        explored := ⟨drawn, hnew⟩
        explored' := ⟨drawn', hnew'⟩
        state := rfl
        decided := by simp }
    | false =>
      have hbudget' : s'.outOfBudget = false := h.outOfBudget_eq.trans hbudget
      have hsame := h.enumerator
      cases hnext : s.enumerator.next ticks with
      | none =>
        rw [step_of_none hs hbudget _ hnext, step_of_none hs' hbudget' _ (hsame ▸ hnext)]
        exact .none
      | some p =>
        obtain ⟨_ | t, e⟩ := p
        · have hstep := step_of_end hs hbudget (.ofFunction decide) hnext ()
          have hstep' := step_of_end hs' hbudget' (.ofFunction decide) (hsame ▸ hnext) ()
          obtain ⟨drawn, hnew, -⟩ := hexplored.step hstep
          obtain ⟨drawn', hnew', -⟩ := hexplored'.step hstep'
          rw [hstep, hstep']
          exact .some { h with
            explored := ⟨drawn, hnew⟩
            explored' := ⟨drawn', hnew'⟩
            enumerator := rfl
            state := rfl
            decided := by simp }
        · rw [step_of_next hs hbudget _ hnext, step_of_next hs' hbudget' _ (hsame ▸ hnext)]
          exact .some (h.process hdecide hs hnext)
  · rw [step_of_final hs, step_of_final (h.state ▸ hs)]
    exact .some h

/-- Two searches that are alike run to ends that are alike, or both do not end within the steps. -/
theorem Alike.run (h : Alike decide s s') (hdecide : Consistent decide) (steps : Nat) :
    Option.Rel (fun x y => Alike decide x.1 y.1) (s.run (.ofFunction decide) steps ())
      (s'.run (.ofFunction decide) steps ()) := by
  induction steps generalizing s s' with
  | zero => exact .none
  | succ steps ih =>
    by_cases hs : s.state = .searching
    · have hs' : s'.state = .searching := h.state.trans hs
      rw [Search.run, Search.run, if_neg (not_not.2 hs), if_neg (not_not.2 hs')]
      have hstep := h.step hdecide steps
      generalize s.step (.ofFunction decide) steps () = r at hstep ⊢
      generalize s'.step (.ofFunction decide) steps () = r' at hstep ⊢
      cases hstep with
      | some hnext => exact ih hnext
      | none => exact .none
    · rw [run_of_final hs, run_of_final (h.state ▸ hs)]
      exact .some h

/-- How a search ended, and how many candidates it has drawn. -/
def ending (s : Search g) : SearchState × Nat := (s.state, s.stats.candidates)

/-- Let an oracle be consistent, and let there be no limit on time. Within any number of steps, a
search that decides the three conditions at once ends if and only if one that decides them in order
does. Both end in the same state, which is not "unknown", with as many candidates drawn. -/
theorem run_parallel_eq (ts : TransitionSystem) (g : Grammar) (maxIterations maxSize : Option Nat)
    {decide : Condition → Decision} (hdecide : Consistent decide) (steps : Nat) :
    ((new ts g ⟨maxIterations, none, maxSize, true⟩).run (.ofFunction decide) steps ()).map
        (fun x => x.1.ending) =
      ((new ts g ⟨maxIterations, none, maxSize, false⟩).run (.ofFunction decide) steps ()).map
        (fun x => x.1.ending) ∧
    ∀ x, (new ts g ⟨maxIterations, none, maxSize, false⟩).run (.ofFunction decide) steps () =
        some x →
      (∃ t, x.1.state = .found t) ∨ x.1.state = .exhausted ∨ x.1.state = .timeout := by
  have hnew : Alike decide (new ts g ⟨maxIterations, none, maxSize, false⟩)
      (new ts g ⟨maxIterations, none, maxSize, true⟩) := alike_new ts g rfl rfl rfl rfl
  have hrun := hnew.run hdecide steps
  refine ⟨?_, fun x hx => ?_⟩
  · generalize (new ts g ⟨maxIterations, none, maxSize, false⟩).run _ steps () = r at hrun ⊢
    generalize (new ts g ⟨maxIterations, none, maxSize, true⟩).run _ steps () = r' at hrun ⊢
    cases hrun with
    | some h => exact congrArg some (Prod.ext h.state h.candidates)
    | none => rfl
  · have hfinal := ((Reachable.new ()).run hx).2
    rw [hx] at hrun
    generalize (new ts g ⟨maxIterations, none, maxSize, true⟩).run _ steps () = r' at hrun
    cases hrun with
    | some h =>
      cases hstate : x.1.state with
      | searching => exact absurd hstate hfinal
      | found t => exact .inl ⟨t, rfl⟩
      | exhausted => exact .inr (.inl rfl)
      | unknown kind reason => exact absurd hstate (h.decided kind reason)
      | timeout => exact .inr (.inr rfl)

/-- A system over one Boolean in which all is allowed, and which is to be true. -/
def freeBit : TransitionSystem := ⟨[⟨"b", .bool⟩], .bool true, .bool true, .id "b"⟩

/-- Assignments against the conditions of the candidate `b`: one to the initial condition, and one
to the condition on transitions. -/
def freeBitTests : List Assignment :=
  [.ofList [("b", .bool false)], .ofList [("b", .bool true), ("b'", .bool false)]]

/-- In a free bit the candidate `b` fails initially and along transitions, of which only one is seen
when the conditions are decided in order. Both searches are exhausted after this candidate. -/
theorem run_parallel_freeBit : ∃ s s',
    (new freeBit (single [.id "b"]) ⟨none, none, none, false⟩).run
      (.ofFunction (Decision.trying freeBitTests)) 3 () = some (s, ()) ∧
    (new freeBit (single [.id "b"]) ⟨none, none, none, true⟩).run
      (.ofFunction (Decision.trying freeBitTests)) 3 () = some (s', ()) ∧
    s.ending = (.exhausted, 1) ∧ s'.ending = (.exhausted, 1) := by
  have hlimit : (Enumerator.new (single [.id "b"]) none).limit = some 1 := by decide +kernel
  have hfirst := Enumerator.next_new (g := single [.id "b"]) none
    (r := ⟨.id "b", [], 1⟩) rfl rfl rfl (by rw [Enumerator.excludes, hlimit]; rfl) 1
  obtain ⟨s₁, e, hstep, hstate, hbudget, hnext, hcandidates⟩ : ∃ s₁ e,
      (new freeBit (single [.id "b"]) ⟨none, none, none, false⟩).step
        (.ofFunction (Decision.trying freeBitTests)) 2 () = some (s₁, ()) ∧
      s₁.state = .searching ∧ s₁.outOfBudget = false ∧ s₁.enumerator.next 1 = some (none, e) ∧
      s₁.stats.candidates = 1 :=
    ⟨_, _, step_of_next rfl rfl _ hfirst (), by decide +kernel, by decide +kernel, rfl, rfl⟩
  have hrun := (run_of_step rfl hstep).trans ((run_of_step hstate
    (step_of_end hstate hbudget _ hnext ())).trans (run_of_final (by simp) 0 ()))
  have hending : ({ s₁ with enumerator := e, state := .exhausted } : Search _).ending =
      (.exhausted, 1) := Prod.ext rfl hcandidates
  have hsame := (run_parallel_eq freeBit (single [.id "b"]) none none
    (consistent_trying freeBitTests) 3).1
  rw [hrun, Option.map_some, Option.map_eq_some_iff] at hsame
  obtain ⟨⟨s', ⟨⟩⟩, hrun', hending'⟩ := hsame
  exact ⟨_, s', hrun, hrun', hending, hending'.trans hending⟩

end Search

end InvariantSearch
