import InvariantSearch.Proofs.Logging

/-!
# What a step does

`Search.Stepped` lists all that a step of a search can do, one constructor for each way it can end.
Where the oracle is asked, `Oracle.Asked` says about which conditions, in which order and from which
state on. An oracle that keeps a log has just these answers in it (`Oracle.Asked.of_logged`).
-/

namespace InvariantSearch

variable {σ : Type}

/-! ## Asking in order -/

namespace Oracle

/-- From the state `q` the oracle is asked about the first of the conditions, in order, and gives
these answers; it is left in the state `q'`. All of them are asked about at once, or only those up
to the first that is not "valid". -/
inductive Asked (oracle : Oracle σ) (all : Bool) :
    List Condition → σ → List (Condition × Decision) → σ → Prop
  | nil (q : σ) : Asked oracle all [] q [] q
  | stop {c : Condition} {cs : List Condition} {d : Decision} {q q' : σ} (h : oracle c q = (d, q'))
      (hd : d ≠ .valid) (hall : all = false) : Asked oracle all (c :: cs) q [(c, d)] q'
  | cons {c : Condition} {cs : List Condition} {d : Decision} {q q₁ q' : σ}
      {answers : List (Condition × Decision)} (h : oracle c q = (d, q₁))
      (hd : all = true ∨ d = .valid) (hs : Asked oracle all cs q₁ answers q') :
      Asked oracle all (c :: cs) q ((c, d) :: answers) q'

/-- The decisions by the kinds of their conditions. -/
def byKind (answers : List (Condition × Decision)) : List (ConditionKind × Decision) :=
  answers.map fun (c, d) => (c.kind, d)

variable {oracle : Oracle σ} {all : Bool} {cs : List Condition} {q q' : σ}
  {answers : List (Condition × Decision)}

theorem asked_decideAll (oracle : Oracle σ) (cs : List Condition) (q : σ) :
    ∃ answers, (oracle.decideAll cs q).1 = byKind answers ∧
      oracle.Asked true cs q answers (oracle.decideAll cs q).2 := by
  induction cs generalizing q with
  | nil => exact ⟨[], rfl, .nil q⟩
  | cons c cs ih =>
    obtain ⟨answers, hdecisions, hasked⟩ := ih (oracle c q).2
    exact ⟨(c, (oracle c q).1) :: answers, congrArg ((c.kind, (oracle c q).1) :: ·) hdecisions,
      .cons rfl (.inl rfl) hasked⟩

theorem asked_decideUntil (oracle : Oracle σ) (cs : List Condition) (q : σ) :
    ∃ answers, (oracle.decideUntil cs q).1 = byKind answers ∧
      oracle.Asked false cs q answers (oracle.decideUntil cs q).2 := by
  induction cs generalizing q with
  | nil => exact ⟨[], rfl, .nil q⟩
  | cons c cs ih =>
    obtain ⟨d, q₁, h⟩ : ∃ d q₁, oracle c q = (d, q₁) := ⟨_, _, rfl⟩
    simp only [decideUntil, bind, StateT.bind, h]
    cases d with
    | valid =>
      obtain ⟨answers, hdecisions, hasked⟩ := ih q₁
      exact ⟨(c, .valid) :: answers, congrArg ((c.kind, Decision.valid) :: ·) hdecisions,
        .cons h (.inr rfl) hasked⟩
    | invalid a => exact ⟨[(c, .invalid a)], rfl, .stop h (by simp) rfl⟩
    | unknown reason => exact ⟨[(c, .unknown reason)], rfl, .stop h (by simp) rfl⟩

/-- No more conditions are asked about than there are, and the first ones are. -/
theorem Asked.begins (h : oracle.Asked all cs q answers q') : answers.map Prod.fst <+: cs := by
  induction h with
  | nil => exact List.prefix_rfl
  | stop => exact (List.prefix_cons_inj _).2 List.nil_prefix
  | cons _ _ _ ih => exact (List.prefix_cons_inj _).2 ih

theorem Asked.length_le (h : oracle.Asked all cs q answers q') : answers.length ≤ cs.length := by
  simpa using h.begins.length_le

theorem Asked.length_pos (h : oracle.Asked all cs q answers q') (hcs : cs ≠ []) :
    0 < answers.length := by
  cases h with
  | nil => exact absurd rfl hcs
  | stop => exact Nat.one_pos
  | cons => exact Nat.succ_pos _

/-- Where all conditions are asked about, all are answered. -/
theorem Asked.length_eq (h : oracle.Asked true cs q answers q') : answers.length = cs.length := by
  induction h with
  | nil => rfl
  | stop _ _ hall => cases hall
  | cons _ _ _ ih => exact congrArg Nat.succ ih

/-- Every answer is one that the oracle gives to one of the conditions. -/
theorem Asked.answers_of_mem (h : oracle.Asked all cs q answers q') {c : Condition} {d : Decision}
    (hmem : (c, d) ∈ answers) : c ∈ cs ∧ oracle.Answers c d := by
  induction h with
  | nil => simp at hmem
  | stop h =>
    obtain ⟨rfl, rfl⟩ := Prod.mk.inj (List.mem_singleton.1 hmem)
    exact ⟨List.mem_cons_self, _, by rw [h]⟩
  | cons h _ _ ih =>
    rcases List.mem_cons.1 hmem with heq | hmem
    · obtain ⟨rfl, rfl⟩ := Prod.mk.inj heq
      exact ⟨List.mem_cons_self, _, by rw [h]⟩
    · exact ⟨List.mem_cons_of_mem _ (ih hmem).1, (ih hmem).2⟩

theorem logged_eq_iff {c : Condition} {d : Decision} {log log' : List (Condition × Decision)} :
    oracle.logged c (q, log) = (d, q', log') ↔ oracle c q = (d, q') ∧ log' = (c, d) :: log := by
  show ((oracle c q).1, (oracle c q).2, (c, (oracle c q).1) :: log) = (d, q', log') ↔ _
  rcases oracle c q with ⟨d₁, q₁⟩
  constructor
  · rintro ⟨⟩
    exact ⟨rfl, rfl⟩
  · rintro ⟨⟨⟩, rfl⟩
    rfl

/-- The log has the answers, the latest first, and before them what was in it. -/
theorem Asked.of_logged {log log' : List (Condition × Decision)}
    (h : oracle.logged.Asked all cs (q, log) answers (q', log')) :
    oracle.Asked all cs q answers q' ∧ log' = answers.reverse ++ log := by
  generalize hstart : (q, log) = x at h
  generalize hend : (q', log') = x' at h
  induction h generalizing q log with
  | nil =>
    obtain ⟨rfl, rfl⟩ := Prod.mk.inj (hstart.trans hend.symm)
    exact ⟨.nil q, rfl⟩
  | stop h hd hall =>
    subst hstart hend
    obtain ⟨hc, rfl⟩ := logged_eq_iff.1 h
    exact ⟨.stop hc hd hall, rfl⟩
  | @cons c cs d x x₁ x' answers h hd _ ih =>
    subst hstart hend
    obtain ⟨q₁, log₁⟩ := x₁
    obtain ⟨hc, rfl⟩ := logged_eq_iff.1 h
    obtain ⟨hasked, rfl⟩ := ih rfl rfl
    exact ⟨.cons hc hd hasked, by simp⟩

end Oracle

/-! ## Conclusions, with what is counted -/

namespace Search

open Oracle (byKind)

variable {g : Grammar} {oracle : Oracle σ} {s s' : Search g} {t : Term} {q q' : σ}
  {ds : List (ConditionKind × Decision)}

theorem conclude_of_unknown (s : Search g) (t : Term) {kind : ConditionKind} {reason : String}
    (h : firstUnknown ds = some (kind, reason)) : s.conclude t ds = { s with
      stats := { s.stats with queries := s.stats.queries + ds.length }
      state := .unknown kind reason } := by
  rw [conclude, h]

theorem conclude_of_decided (s : Search g) (t : Term) (h : firstUnknown ds = none) :
    s.conclude t ds = { s with
      store := s.store ++ counterexamples ds
      stats := { s.stats with
        queries := s.stats.queries + ds.length
        counterexamples := s.stats.counterexamples + (counterexamples ds).length }
      state := if ds.length = 3 && (counterexamples ds).isEmpty then .found t else s.state } := by
  rw [conclude, h]
  simp only [foldl_record]

/-! ## All that a step does -/

/-- All that a step of a search can do, with the oracle that it asks. -/
inductive Stepped (oracle : Oracle σ) (ticks : Nat) (s : Search g) (q : σ) : Search g → σ → Prop
  /-- A final state stays as it is. -/
  | final (hs : s.state ≠ .searching) : Stepped oracle ticks s q s q
  /-- A limit is reached. -/
  | gaveUp (hs : s.state = .searching) (hbudget : s.outOfBudget = true) :
      Stepped oracle ticks s q { s with state := .timeout } q
  /-- No term is left. -/
  | ended (hs : s.state = .searching) (hbudget : s.outOfBudget = false) {e : Enumerator g}
      (hnext : s.enumerator.next ticks = some (none, e)) :
      Stepped oracle ticks s q { s with enumerator := e, state := .exhausted } q
  /-- A candidate is drawn that the store refutes. -/
  | refuted (hs : s.state = .searching) (hbudget : s.outOfBudget = false) {e : Enumerator g}
      {t : Term} (hnext : s.enumerator.next ticks = some (some t, e)) {cex : Counterexample}
      (hviolated : s.store.firstViolated s.system t = some cex) :
      Stepped oracle ticks s q { s with
        enumerator := e
        stats := { s.stats with
          candidates := s.stats.candidates + 1, rejected := s.stats.rejected + 1 } } q
  /-- A candidate is drawn, and the oracle is asked about it. -/
  | decided (hs : s.state = .searching) (hbudget : s.outOfBudget = false) {e : Enumerator g}
      {t : Term} (hnext : s.enumerator.next ticks = some (some t, e))
      (hadmitted : s.store.firstViolated s.system t = none)
      {answers : List (Condition × Decision)} {q' : σ}
      (hasked : oracle.Asked s.config.parallel (s.system.conditions t) q answers q') :
      Stepped oracle ticks s q
        ({ s with
          enumerator := e
          stats := { s.stats with candidates := s.stats.candidates + 1 } }.conclude t
            (byKind answers)) q'

theorem asked_check (oracle : Oracle σ) (s : Search g) (t : Term) (q : σ) :
    ∃ answers, (s.check oracle t q).1 = byKind answers ∧
      oracle.Asked s.config.parallel (s.system.conditions t) q answers (s.check oracle t q).2 := by
  unfold check
  cases s.config.parallel with
  | true => exact oracle.asked_decideAll _ q
  | false => exact oracle.asked_decideUntil _ q

/-- A candidate that the store admits is counted, and then the oracle is asked about it. -/
theorem process_of_none (oracle : Oracle σ) (s : Search g)
    (h : s.store.firstViolated s.system t = none) (q : σ) :
    s.process oracle t q =
      ({ s with stats := { s.stats with candidates := s.stats.candidates + 1 } }.conclude t
        (check oracle { s with stats := { s.stats with
          candidates := s.stats.candidates + 1 } } t q).1,
      (check oracle { s with stats := { s.stats with
        candidates := s.stats.candidates + 1 } } t q).2) := by
  simp only [process, h]
  rfl

theorem stepped_of_step {ticks : Nat} (h : s.step oracle ticks q = some (s', q')) :
    Stepped oracle ticks s q s' q' := by
  by_cases hs : s.state = .searching
  · cases hbudget : s.outOfBudget with
    | true =>
      rw [step_of_outOfBudget hs hbudget] at h
      obtain ⟨rfl, rfl⟩ := Prod.mk.inj (Option.some.inj h)
      exact .gaveUp hs hbudget
    | false =>
      rcases next_of_step hs hbudget h with ⟨e, hnext, hend⟩ | ⟨t, e, hnext, hprocess⟩
      · obtain ⟨rfl, rfl⟩ := Prod.mk.inj hend
        exact .ended hs hbudget hnext
      · cases hviolated : s.store.firstViolated s.system t with
        | some cex =>
          simp only [process, hviolated] at hprocess
          obtain ⟨rfl, rfl⟩ := Prod.mk.inj hprocess
          exact .refuted hs hbudget hnext hviolated
        | none =>
          obtain ⟨answers, hdecisions, hasked⟩ := asked_check oracle { s with
            enumerator := e
            stats := { s.stats with candidates := s.stats.candidates + 1 } } t q
          rw [process_of_none oracle { s with enumerator := e } hviolated, hdecisions] at hprocess
          obtain ⟨rfl, rfl⟩ := Prod.mk.inj hprocess
          exact .decided hs hbudget hnext hviolated hasked
  · rw [step_of_final hs] at h
    obtain ⟨rfl, rfl⟩ := Prod.mk.inj (Option.some.inj h)
    exact .final hs

end Search

end InvariantSearch
