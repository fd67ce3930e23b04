import InvariantSearch.Proofs.Enumeration
import InvariantSearch.Search.Basic

/-!
# The course of a search

A search knows of every candidate that it has drawn why it is not the answer: `Search.Explored` says
so, and what the final states mean. It speaks of the answers that the oracle gave, and not of
whether they are right. Every step of a search keeps it (`Explored.step`), and so does a run
(`Explored.run`).
-/

namespace InvariantSearch

variable {σ : Type}

/-! ## Answers -/

namespace Oracle

/-- In some state the oracle gives this answer to the condition. -/
def Answers (oracle : Oracle σ) (c : Condition) (d : Decision) : Prop := ∃ q, (oracle c q).1 = d

/-- The decisions are answers to the conditions in order. They may end with one that is not
"valid". -/
inductive Decides (oracle : Oracle σ) :
    List Condition → List (ConditionKind × Decision) → Prop
  | nil : Decides oracle [] []
  | stop {c : Condition} {cs : List Condition} {d : Decision} (h : oracle.Answers c d)
      (hd : d ≠ .valid) : Decides oracle (c :: cs) [(c.kind, d)]
  | cons {c : Condition} {cs : List Condition} {d : Decision}
      {ds : List (ConditionKind × Decision)} (h : oracle.Answers c d) (hs : Decides oracle cs ds) :
      Decides oracle (c :: cs) ((c.kind, d) :: ds)

variable {oracle : Oracle σ} {cs : List Condition} {ds : List (ConditionKind × Decision)}

theorem decides_decideAll (oracle : Oracle σ) (cs : List Condition) (q : σ) :
    oracle.Decides cs (oracle.decideAll cs q).1 := by
  induction cs generalizing q with
  | nil => exact .nil
  | cons c cs ih => exact .cons ⟨q, rfl⟩ (ih _)

theorem decideUntil_of_valid {c : Condition} {q q' : σ} (h : oracle c q = (.valid, q')) :
    (oracle.decideUntil (c :: cs) q).1 = (c.kind, .valid) :: (oracle.decideUntil cs q').1 := by
  simp only [decideUntil, bind, StateT.bind, h]
  rfl

/-- The first decision that is not "valid" is the last one. -/
theorem decideUntil_of_ne_valid {c : Condition} {d : Decision} {q q' : σ} (h : oracle c q = (d, q'))
    (hd : d ≠ .valid) : (oracle.decideUntil (c :: cs) q).1 = [(c.kind, d)] := by
  simp only [decideUntil, bind, StateT.bind, h]
  cases d with
  | valid => exact absurd rfl hd
  | invalid a => rfl
  | unknown reason => rfl

theorem decides_decideUntil (oracle : Oracle σ) (cs : List Condition) (q : σ) :
    oracle.Decides cs (oracle.decideUntil cs q).1 := by
  induction cs generalizing q with
  | nil => exact .nil
  | cons c cs ih =>
    obtain ⟨d, q', hd⟩ : ∃ d q', oracle c q = (d, q') := ⟨_, _, rfl⟩
    have hc : oracle.Answers c d := ⟨q, by rw [hd]⟩
    by_cases hvalid : d = .valid
    · subst hvalid
      rw [decideUntil_of_valid hd]
      exact .cons hc (ih q')
    · rw [decideUntil_of_ne_valid hd hvalid]
      exact .stop hc hvalid

/-- Every decision is the answer to one of the conditions. -/
theorem Decides.exists_condition (h : oracle.Decides cs ds) {kind : ConditionKind} {d : Decision}
    (hd : (kind, d) ∈ ds) : ∃ c ∈ cs, c.kind = kind ∧ oracle.Answers c d := by
  induction h with
  | nil => simp at hd
  | stop h _ =>
    obtain ⟨rfl, rfl⟩ := Prod.mk.inj (List.mem_singleton.1 hd)
    exact ⟨_, List.mem_cons_self, rfl, h⟩
  | cons h _ ih =>
    rcases List.mem_cons.1 hd with heq | hd
    · obtain ⟨rfl, rfl⟩ := Prod.mk.inj heq
      exact ⟨_, List.mem_cons_self, rfl, h⟩
    · obtain ⟨c, hc, hkind, h⟩ := ih hd
      exact ⟨c, List.mem_cons_of_mem _ hc, hkind, h⟩

/-- Decisions that all are "valid" answer every condition. -/
theorem Decides.all_valid (h : oracle.Decides cs ds) (hvalid : ∀ p ∈ ds, p.2 = .valid) :
    ds.length = cs.length ∧ ∀ c ∈ cs, oracle.Answers c .valid := by
  induction h with
  | nil => exact ⟨rfl, by simp⟩
  | stop h hd => exact absurd (hvalid _ List.mem_cons_self) hd
  | cons h _ ih =>
    have hhead := hvalid _ List.mem_cons_self
    obtain ⟨length, hall⟩ := ih fun p hp => hvalid p (List.mem_cons_of_mem _ hp)
    exact ⟨congrArg Nat.succ length, List.forall_mem_cons.2 ⟨hhead ▸ h, hall⟩⟩

end Oracle

namespace TransitionSystem

variable {ts : TransitionSystem} {t : Term}

@[simp] theorem condition_kind (ts : TransitionSystem) (kind : ConditionKind) (t : Term) :
    (ts.condition kind t).kind = kind := by
  cases kind <;> rfl

theorem mem_conditions {c : Condition} :
    c ∈ ts.conditions t ↔ ∃ kind, c = ts.condition kind t := by
  simp only [conditions, List.mem_map]
  constructor
  · rintro ⟨kind, -, rfl⟩
    exact ⟨kind, rfl⟩
  · rintro ⟨kind, rfl⟩
    exact ⟨kind, by cases kind <;> simp, rfl⟩

end TransitionSystem

/-! ## Conclusions from decisions -/

namespace Search

variable {ds : List (ConditionKind × Decision)}

theorem mem_counterexamples {cex : Counterexample} :
    cex ∈ counterexamples ds ↔ (cex.kind, .invalid cex.assignment) ∈ ds := by
  rw [counterexamples, List.mem_filterMap]
  constructor
  · rintro ⟨⟨kind, d⟩, hd, hcex⟩
    cases d with
    | invalid a =>
      obtain rfl := Option.some.inj hcex
      exact hd
    | valid => cases hcex
    | unknown reason => cases hcex
  · intro h
    exact ⟨_, h, rfl⟩

/-- Where every condition is decided and there is no counterexample, all are valid. -/
theorem valid_of_no_counterexamples (hunknown : firstUnknown ds = none)
    (hcexs : counterexamples ds = []) : ∀ p ∈ ds, p.2 = .valid := by
  rintro ⟨kind, d⟩ hp
  cases d with
  | valid => rfl
  | invalid a =>
    have hmem : (⟨kind, a⟩ : Counterexample) ∈ counterexamples ds := mem_counterexamples.2 hp
    rw [hcexs] at hmem
    simp at hmem
  | unknown reason =>
    have hnone := List.findSome?_eq_none_iff.1 hunknown (kind, .unknown reason) hp
    simp at hnone

theorem foldl_record (cexs : List Counterexample) (store : Store) :
    cexs.foldl Store.record store = store ++ cexs := by
  induction cexs generalizing store with
  | nil => simp
  | cons cex cexs ih => simp [ih, Store.record]

/-- What follows from the decisions about a candidate. Either a condition was not decided, and that
is final; or the counterexamples are stored, and the search goes on unless all are valid. -/
theorem conclude_cases {g : Grammar} (s : Search g) (t : Term) {oracle : Oracle σ}
    (h : oracle.Decides (s.system.conditions t) ds) :
    (s.conclude t ds).system = s.system ∧ (s.conclude t ds).enumerator = s.enumerator ∧
      ((∃ kind reason, (s.conclude t ds).state = .unknown kind reason ∧
          (s.conclude t ds).store = s.store) ∨
        (s.conclude t ds).store = s.store ++ counterexamples ds ∧
          ((s.conclude t ds).state = .found t ∧
              (∀ c ∈ s.system.conditions t, oracle.Answers c .valid) ∨
            (s.conclude t ds).state = s.state ∧ ∃ cex, cex ∈ counterexamples ds)) := by
  unfold conclude
  cases hunknown : firstUnknown ds with
  | some p =>
    obtain ⟨kind, reason⟩ := p
    exact ⟨rfl, rfl, .inl ⟨kind, reason, rfl, rfl⟩⟩
  | none =>
    refine ⟨rfl, rfl, .inr ⟨foldl_record _ _, ?_⟩⟩
    cases hcexs : counterexamples ds with
    | nil =>
      obtain ⟨length, hall⟩ := h.all_valid (valid_of_no_counterexamples hunknown hcexs)
      exact .inl ⟨by simp [length, TransitionSystem.conditions], hall⟩
    | cons cex cexs => exact .inr ⟨by simp, cex, List.mem_cons_self⟩

/-! ## What a search knows -/

variable {g : Grammar} {oracle : Oracle σ} {s : Search g} {drawn : List Term}

/-- The counterexample rules the candidate out: it refutes the candidate, or the oracle gave it as
one to a condition on the candidate. -/
def RulesOut (oracle : Oracle σ) (ts : TransitionSystem) (cex : Counterexample) (t : Term) : Prop :=
  cex.refutes ts t = true ∨ oracle.Answers (ts.condition cex.kind t) (.invalid cex.assignment)

/-- What a search has found out about the candidates that it has drawn. -/
structure Explored (oracle : Oracle σ) (s : Search g) (drawn : List Term) : Prop where
  reached : s.enumerator.Reached drawn
  stored : ∀ cex ∈ s.store, ∃ t,
    oracle.Answers (s.system.condition cex.kind t) (.invalid cex.assignment)
  ruledOut : s.state = .searching ∨ s.state = .exhausted →
    ∀ t ∈ drawn, ∃ cex ∈ s.store, RulesOut oracle s.system cex t
  found : ∀ t, s.state = .found t →
    t ∈ drawn ∧ ∀ c ∈ s.system.conditions t, oracle.Answers c .valid
  exhausted : s.state = .exhausted → s.enumerator.exhausted = true

theorem explored_new (oracle : Oracle σ) (ts : TransitionSystem) (g : Grammar)
    (config : SearchConfig) : (new ts g config).Explored oracle [] where
  reached := Enumerator.reached_new g config.maxSize
  stored := by simp [new]
  ruledOut := by simp
  found := by simp [new]
  exhausted := by simp [new]

theorem decides_check (oracle : Oracle σ) (s : Search g) (t : Term) (q : σ) :
    oracle.Decides (s.system.conditions t) (s.check oracle t q).1 := by
  unfold check
  cases s.config.parallel with
  | true => exact oracle.decides_decideAll _ q
  | false => exact oracle.decides_decideUntil _ q

theorem firstViolated_eq_some {store : Store} {ts : TransitionSystem} {t : Term}
    {cex : Counterexample} (h : store.firstViolated ts t = some cex) :
    cex ∈ store ∧ cex.refutes ts t = true :=
  ⟨List.mem_of_find?_eq_some h, by simpa using List.find?_some h⟩

/-- A candidate that the store refutes changes no more than what is counted. -/
theorem process_of_refuted (oracle : Oracle σ) (s : Search g) {t : Term} {cex : Counterexample}
    (h : s.store.firstViolated s.system t = some cex) (q : σ) :
    ∃ stats, (s.process oracle t q).1 = { s with stats } := by
  refine ⟨{ s.stats with
    candidates := s.stats.candidates + 1, rejected := s.stats.rejected + 1 }, ?_⟩
  simp only [process, h]
  rfl

/-- About any other candidate the oracle is asked. -/
theorem process_of_admitted (oracle : Oracle σ) (s : Search g) {t : Term}
    (h : s.store.firstViolated s.system t = none) (q : σ) :
    ∃ stats ds, oracle.Decides (s.system.conditions t) ds ∧
      (s.process oracle t q).1 = { s with stats }.conclude t ds := by
  refine ⟨{ s.stats with candidates := s.stats.candidates + 1 }, (s.check oracle t q).1,
    decides_check oracle s t q, ?_⟩
  simp only [process, h]
  rfl

/-- A counterexample that the oracle gave rules its candidate out. -/
theorem exists_answer {t : Term} {ds : List (ConditionKind × Decision)}
    (h : oracle.Decides (s.system.conditions t) ds) {cex : Counterexample}
    (hcex : cex ∈ counterexamples ds) :
    oracle.Answers (s.system.condition cex.kind t) (.invalid cex.assignment) := by
  obtain ⟨c, hc, hkind, hanswer⟩ := h.exists_condition (mem_counterexamples.1 hcex)
  obtain ⟨kind, rfl⟩ := TransitionSystem.mem_conditions.1 hc
  rw [TransitionSystem.condition_kind] at hkind
  rwa [← hkind]

/-- A candidate that the store refutes is ruled out, and nothing else changes. -/
theorem Explored.refuted (h : s.Explored oracle drawn) (hs : s.state = .searching)
    {e : Enumerator g} {t : Term} (he : e.Reached (drawn ++ [t])) {cex : Counterexample}
    (hcex : cex ∈ s.store) (hrefutes : cex.refutes s.system t = true) (stats : SearchStats) :
    Explored oracle { s with enumerator := e, stats } (drawn ++ [t]) := by
  refine ⟨he, h.stored, fun _ u hu => ?_, fun u hu => ?_, fun hu => ?_⟩
  · rcases List.mem_append.1 hu with hu | hu
    · exact h.ruledOut (.inl hs) u hu
    · obtain rfl := List.mem_singleton.1 hu
      exact ⟨cex, hcex, .inl hrefutes⟩
  · rw [hs] at hu
    cases hu
  · rw [hs] at hu
    cases hu

/-- What follows from the decisions about a candidate: it is found if all are "valid", and ruled out
if the search goes on. -/
theorem Explored.decided (h : s.Explored oracle drawn) (hs : s.state = .searching)
    {e : Enumerator g} {t : Term} (he : e.Reached (drawn ++ [t]))
    (hds : oracle.Decides (s.system.conditions t) ds) (stats : SearchStats) :
    Explored oracle ({ s with enumerator := e, stats }.conclude t ds) (drawn ++ [t]) := by
  have hanswer {cex : Counterexample} (hcex : cex ∈ counterexamples ds) :
      oracle.Answers (s.system.condition cex.kind t) (.invalid cex.assignment) :=
    exists_answer hds hcex
  have hstored : ∀ cex ∈ s.store ++ counterexamples ds, ∃ u,
      oracle.Answers (s.system.condition cex.kind u) (.invalid cex.assignment) := by
    intro cex hcex
    rcases List.mem_append.1 hcex with hcex | hcex
    · exact h.stored cex hcex
    · exact ⟨t, hanswer hcex⟩
  obtain ⟨hsystem, henumerator, hcases⟩ := conclude_cases { s with enumerator := e, stats } t hds
  generalize { s with enumerator := e, stats }.conclude t ds = s' at *
  rcases hcases with
    ⟨kind, reason, hstate, hstore⟩ | ⟨hstore, ⟨hstate, hvalid⟩ | ⟨hstate, cex, hcex⟩⟩
  · exact
      { reached := henumerator ▸ he
        stored := hsystem ▸ hstore ▸ h.stored
        ruledOut := by simp [hstate]
        found := by simp [hstate]
        exhausted := by simp [hstate] }
  · refine
      { reached := henumerator ▸ he
        stored := hsystem ▸ hstore ▸ hstored
        ruledOut := by simp [hstate]
        found := fun u hu => ?_
        exhausted := by simp [hstate] }
    obtain rfl := SearchState.found.inj (hstate.symm.trans hu)
    exact ⟨by simp, hsystem ▸ hvalid⟩
  · refine
      { reached := henumerator ▸ he
        stored := hsystem ▸ hstore ▸ hstored
        ruledOut := fun _ u hu => ?_
        found := by simp [hstate, hs]
        exhausted := by simp [hstate, hs] }
    rw [hstore, hsystem]
    rcases List.mem_append.1 hu with hu | hu
    · obtain ⟨cex, hcex, hrules⟩ := h.ruledOut (.inl hs) u hu
      exact ⟨cex, List.mem_append_left _ hcex, hrules⟩
    · obtain rfl := List.mem_singleton.1 hu
      exact ⟨cex, List.mem_append_right _ hcex, .inr (hanswer hcex)⟩

/-- Processing a candidate keeps what is known of the earlier ones, and finds out about it. -/
theorem Explored.process (h : s.Explored oracle drawn) (hs : s.state = .searching)
    {e : Enumerator g} {t : Term} (he : e.Reached (drawn ++ [t])) (q : σ) :
    (Search.process oracle { s with enumerator := e } t q).1.Explored oracle (drawn ++ [t]) ∧
      (Search.process oracle { s with enumerator := e } t q).1.system = s.system ∧
      (Search.process oracle { s with enumerator := e } t q).1.enumerator = e := by
  cases hviolated : s.store.firstViolated s.system t with
  | some cex =>
    obtain ⟨hcex, hrefutes⟩ := firstViolated_eq_some hviolated
    obtain ⟨stats, hprocess⟩ := process_of_refuted oracle { s with enumerator := e } hviolated q
    rw [hprocess]
    exact ⟨h.refuted hs he hcex hrefutes stats, rfl, rfl⟩
  | none =>
    obtain ⟨stats, ds, hds, hprocess⟩ :=
      process_of_admitted oracle { s with enumerator := e } hviolated q
    rw [hprocess]
    obtain ⟨hsystem, henumerator, -⟩ := conclude_cases { s with enumerator := e, stats } t hds
    exact ⟨h.decided hs he hds stats, hsystem, henumerator⟩

/-- A step keeps what is known, perhaps with one more candidate. -/
theorem Explored.step (h : s.Explored oracle drawn) {ticks : Nat} {q q' : σ} {s' : Search g}
    (hstep : s.step oracle ticks q = some (s', q')) :
    ∃ drawn', s'.Explored oracle drawn' ∧ s'.system = s.system ∧
      s'.enumerator.limit = s.enumerator.limit := by
  unfold Search.step at hstep
  by_cases hs : s.state = .searching
  · rw [if_neg (not_not.2 hs)] at hstep
    split at hstep
    next =>
      obtain ⟨rfl, -⟩ := Prod.mk.inj (Option.some.inj hstep)
      exact ⟨drawn, ⟨h.reached, h.stored, by simp, by simp, by simp⟩, rfl, rfl⟩
    next =>
      split at hstep
      next => cases hstep
      next e hnext =>
        obtain ⟨rfl, -⟩ := Prod.mk.inj (Option.some.inj hstep)
        obtain ⟨hreached, hlimit, hend⟩ := h.reached.next hnext
        rw [Option.toList_none, List.append_nil] at hreached
        exact ⟨drawn, ⟨hreached, h.stored, fun _ => h.ruledOut (.inl hs), by simp,
          fun _ => hend rfl⟩, rfl, hlimit⟩
      next t e hnext =>
        obtain ⟨hreached, hlimit, -⟩ := h.reached.next hnext
        obtain ⟨hexplored, hsystem, henumerator⟩ := h.process hs hreached q
        rw [Option.some.inj hstep] at hexplored hsystem henumerator
        exact ⟨drawn ++ [t], hexplored, hsystem, henumerator ▸ hlimit⟩
  · rw [if_pos hs] at hstep
    obtain ⟨rfl, -⟩ := Prod.mk.inj (Option.some.inj hstep)
    exact ⟨drawn, h, rfl, rfl⟩

/-! ## Runs -/

/-- A search that goes on processes the term that it draws. -/
theorem step_of_next (hs : s.state = .searching) (hbudget : s.outOfBudget = false)
    (oracle : Oracle σ) {ticks : Nat} {t : Term} {e : Enumerator g}
    (hnext : s.enumerator.next ticks = some (some t, e)) (q : σ) :
    s.step oracle ticks q = some (Search.process oracle { s with enumerator := e } t q) := by
  rw [step, if_neg (not_not.2 hs), hbudget, hnext]
  rfl

/-- A search that goes on is exhausted when no term is left. -/
theorem step_of_end (hs : s.state = .searching) (hbudget : s.outOfBudget = false)
    (oracle : Oracle σ) {ticks : Nat} {e : Enumerator g}
    (hnext : s.enumerator.next ticks = some (none, e)) (q : σ) :
    s.step oracle ticks q = some ({ s with enumerator := e, state := .exhausted }, q) := by
  rw [step, if_neg (not_not.2 hs), hbudget, hnext]
  rfl

theorem step_of_final (hs : s.state ≠ .searching) (oracle : Oracle σ) (ticks : Nat) (q : σ) :
    s.step oracle ticks q = some (s, q) :=
  if_pos hs

/-- A search that goes on gives up when a limit is reached. -/
theorem step_of_outOfBudget (hs : s.state = .searching) (hbudget : s.outOfBudget = true)
    (oracle : Oracle σ) (ticks : Nat) (q : σ) :
    s.step oracle ticks q = some ({ s with state := .timeout }, q) := by
  rw [step, if_neg (not_not.2 hs), if_pos hbudget]

theorem step_of_none (hs : s.state = .searching) (hbudget : s.outOfBudget = false)
    (oracle : Oracle σ) {ticks : Nat} (hnext : s.enumerator.next ticks = none) (q : σ) :
    s.step oracle ticks q = none := by
  rw [step, if_neg (not_not.2 hs), hbudget, hnext]
  rfl

/-- A step within the limits finds that no term is left, or processes the term that it draws. -/
theorem next_of_step (hs : s.state = .searching) (hbudget : s.outOfBudget = false) {ticks : Nat}
    {q : σ} {r : Search g × σ} (hstep : s.step oracle ticks q = some r) :
    (∃ e, s.enumerator.next ticks = some (none, e) ∧
      r = ({ s with enumerator := e, state := .exhausted }, q)) ∨
    ∃ t e, s.enumerator.next ticks = some (some t, e) ∧
      r = Search.process oracle { s with enumerator := e } t q := by
  rcases hnext : s.enumerator.next ticks with _ | ⟨_ | t, e⟩
  · rw [step_of_none hs hbudget oracle hnext] at hstep
    cases hstep
  · rw [step_of_end hs hbudget oracle hnext] at hstep
    exact .inl ⟨e, rfl, (Option.some.inj hstep).symm⟩
  · rw [step_of_next hs hbudget oracle hnext] at hstep
    exact .inr ⟨t, e, rfl, (Option.some.inj hstep).symm⟩

theorem run_of_step (hs : s.state = .searching) {steps : Nat} {q q' : σ} {s' : Search g}
    (hstep : s.step oracle steps q = some (s', q')) :
    s.run oracle (steps + 1) q = s'.run oracle steps q' := by
  rw [Search.run, if_neg (not_not.2 hs), hstep, Option.bind_some]

theorem run_of_final (hs : s.state ≠ .searching) (steps : Nat) (q : σ) :
    s.run oracle (steps + 1) q = some (s, q) := by
  rw [Search.run, if_pos hs]

/-- The searches that are reached from the beginning of one by steps. Each step may take any number
of ticks, and any time may pass between steps. -/
inductive Reachable (oracle : Oracle σ) (ts : TransitionSystem) (g : Grammar)
    (config : SearchConfig) : Search g → σ → Prop
  | new (q : σ) : Reachable oracle ts g config (.new ts g config) q
  | wait {s : Search g} {q : σ} (h : Reachable oracle ts g config s q) (elapsed : Nat) :
      Reachable oracle ts g config { s with elapsed } q
  | step {s s' : Search g} {q q' : σ} {ticks : Nat} (h : Reachable oracle ts g config s q)
      (hstep : s.step oracle ticks q = some (s', q')) : Reachable oracle ts g config s' q'

variable {ts : TransitionSystem} {config : SearchConfig} {q : σ}

theorem Reachable.explored (h : Reachable oracle ts g config s q) :
    ∃ drawn, s.Explored oracle drawn ∧ s.system = ts ∧
      s.enumerator.limit = (Enumerator.new g config.maxSize).limit := by
  induction h with
  | new q => exact ⟨[], explored_new oracle ts g config, rfl, rfl⟩
  | wait _ elapsed ih =>
    obtain ⟨drawn, h, hsystem, hlimit⟩ := ih
    exact ⟨drawn, ⟨h.reached, h.stored, h.ruledOut, h.found, h.exhausted⟩, hsystem, hlimit⟩
  | step _ hstep ih =>
    obtain ⟨drawn, h, hsystem, hlimit⟩ := ih
    obtain ⟨drawn', h', hsystem', hlimit'⟩ := h.step hstep
    exact ⟨drawn', h', hsystem'.trans hsystem, hlimit'.trans hlimit⟩

/-- A run that ends goes on by steps, and ends in a final state. -/
theorem Reachable.run (h : Reachable oracle ts g config s q) {steps : Nat} {s' : Search g} {q' : σ}
    (hrun : s.run oracle steps q = some (s', q')) :
    Reachable oracle ts g config s' q' ∧ s'.state ≠ .searching := by
  induction steps generalizing s q with
  | zero => cases hrun
  | succ steps ih =>
    rw [Search.run] at hrun
    split at hrun
    next hs =>
      obtain ⟨rfl, rfl⟩ := Prod.mk.inj (Option.some.inj hrun)
      exact ⟨h, hs⟩
    next =>
      obtain ⟨⟨s₁, q₁⟩, hstep, hrun⟩ := Option.bind_eq_some_iff.1 hrun
      exact ih (h.step hstep) hrun

end Search

end InvariantSearch
