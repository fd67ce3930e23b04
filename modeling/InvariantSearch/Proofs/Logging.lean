import InvariantSearch.Proofs.Searching
import Mathlib.Logic.Relation

/-!
# Searches with a log

A search moves on by steps, while time passes (`Search.Moves`). If two oracles give the same answers
to the conditions on a candidate, a search takes the same step with both (`Search.agree_step`). So a
log of the conditions that an oracle is asked about changes nothing (`Search.exists_logged_moves`),
and it has only conditions on terms of the grammar (`Search.logsCandidates_of_moves`).
-/

namespace InvariantSearch

variable {σ : Type}

/-! ## Oracles that agree -/

section Agree

variable {τ : Type} {R : σ → τ → Prop} {oracle : Oracle σ} {oracle' : Oracle τ}

/-- The results are the same, and the states of the two oracles are related. -/
def Agree (R : σ → τ → Prop) {α : Type} (x : α × σ) (y : α × τ) : Prop := x.1 = y.1 ∧ R x.2 y.2

/-- In related states the oracles give the same answer to the condition, and stay related. -/
def Oracle.AgreeOn (R : σ → τ → Prop) (oracle : Oracle σ) (oracle' : Oracle τ)
    (c : Condition) : Prop :=
  ∀ q r, R q r → Agree R (oracle c q) (oracle' c r)

namespace Oracle

variable {cs : List Condition} {q : σ} {r : τ}

theorem agree_decideAll (h : ∀ c ∈ cs, AgreeOn R oracle oracle' c) (hR : R q r) :
    Agree R (oracle.decideAll cs q) (oracle'.decideAll cs r) := by
  induction cs generalizing q r with
  | nil => exact ⟨rfl, hR⟩
  | cons c cs ih =>
    rw [List.forall_mem_cons] at h
    obtain ⟨hanswer, hstate⟩ := h.1 q r hR
    obtain ⟨hanswers, hstates⟩ := ih h.2 hstate
    exact ⟨congrArg₂ (fun d ds => (c.kind, d) :: ds) hanswer hanswers, hstates⟩

theorem agree_decideUntil (h : ∀ c ∈ cs, AgreeOn R oracle oracle' c) (hR : R q r) :
    Agree R (oracle.decideUntil cs q) (oracle'.decideUntil cs r) := by
  induction cs generalizing q r with
  | nil => exact ⟨rfl, hR⟩
  | cons c cs ih =>
    rw [List.forall_mem_cons] at h
    obtain ⟨d, q', hq⟩ : ∃ d q', oracle c q = (d, q') := ⟨_, _, rfl⟩
    obtain ⟨d', r', hr⟩ : ∃ d' r', oracle' c r = (d', r') := ⟨_, _, rfl⟩
    obtain ⟨rfl, hstate⟩ : d = d' ∧ R q' r' := by
      have hc := h.1 q r hR
      rwa [hq, hr] at hc
    simp only [decideUntil, bind, StateT.bind, hq, hr]
    cases d with
    | valid =>
      obtain ⟨hanswers, hstates⟩ := ih h.2 hstate
      exact ⟨congrArg ((c.kind, Decision.valid) :: ·) hanswers, hstates⟩
    | invalid a => exact ⟨rfl, hstate⟩
    | unknown reason => exact ⟨rfl, hstate⟩

end Oracle

namespace Search

variable {g : Grammar} {s s' : Search g} {t : Term} {q q' : σ} {r : τ}

theorem agree_check (h : ∀ c ∈ s.system.conditions t, Oracle.AgreeOn R oracle oracle' c)
    (hR : R q r) : Agree R (s.check oracle t q) (s.check oracle' t r) := by
  unfold check
  split
  next => exact Oracle.agree_decideAll h hR
  next => exact Oracle.agree_decideUntil h hR

theorem agree_process (h : ∀ c ∈ s.system.conditions t, Oracle.AgreeOn R oracle oracle' c)
    (hR : R q r) : Agree R (s.process oracle t q) (s.process oracle' t r) := by
  cases hviolated : s.store.firstViolated s.system t with
  | some cex =>
    simp only [process, hviolated]
    exact ⟨rfl, hR⟩
  | none =>
    obtain ⟨hdecisions, hstate⟩ := agree_check (s := { s with stats := { s.stats with
      candidates := s.stats.candidates + 1 } }) h hR
    simp only [process, hviolated]
    exact ⟨congrArg (Search.conclude _ t) hdecisions, hstate⟩

/-- If two oracles agree on the conditions on the next candidate, a search takes the same step with
both. -/
theorem agree_step {ticks : Nat}
    (h : ∀ t e, s.enumerator.next ticks = some (some t, e) →
      ∀ c ∈ s.system.conditions t, Oracle.AgreeOn R oracle oracle' c)
    (hR : R q r) (hstep : s.step oracle ticks q = some (s', q')) :
    ∃ r', s.step oracle' ticks r = some (s', r') ∧ R q' r' := by
  unfold step at hstep ⊢
  split at hstep
  next hs =>
    obtain ⟨rfl, rfl⟩ := Prod.mk.inj (Option.some.inj hstep)
    exact ⟨r, if_pos hs, hR⟩
  next hs =>
    rw [if_neg hs]
    split at hstep
    next hbudget =>
      obtain ⟨rfl, rfl⟩ := Prod.mk.inj (Option.some.inj hstep)
      exact ⟨r, if_pos hbudget, hR⟩
    next hbudget =>
      rw [if_neg hbudget]
      split at hstep
      next => cases hstep
      next =>
        obtain ⟨rfl, rfl⟩ := Prod.mk.inj (Option.some.inj hstep)
        exact ⟨r, rfl, hR⟩
      next t e hnext =>
        obtain ⟨hsearch, hstate⟩ := agree_process (s := { s with enumerator := e })
          (h t e hnext) hR
        rw [Option.some.inj hstep] at hsearch hstate
        exact ⟨_, congrArg some (Prod.ext hsearch.symm rfl), hstate⟩

end Search

end Agree

/-! ## Moving on -/

namespace Search

variable {g : Grammar} {oracle : Oracle σ}

/-- A search moves on, and its oracle with it: a step is taken, or time passes. -/
inductive Moves (oracle : Oracle σ) : Search g × σ → Search g × σ → Prop
  | wait (s : Search g) (q : σ) (elapsed : Nat) : Moves oracle (s, q) ({ s with elapsed }, q)
  | step {s s' : Search g} {q q' : σ} {ticks : Nat}
      (h : s.step oracle ticks q = some (s', q')) : Moves oracle (s, q) (s', q')

variable {ts : TransitionSystem} {config : SearchConfig} {s s' : Search g} {q q' : σ}

/-- What is reached by steps is reachable, from any state of the oracle. -/
theorem reachable_of_moves {x : Search g × σ}
    (h : Relation.ReflTransGen (Moves oracle) (new ts g config, q) x) :
    Reachable oracle ts g config x.1 x.2 := by
  induction h with
  | refl => exact .new q
  | tail _ hmove ih =>
    cases hmove with
    | wait s q elapsed => exact ih.wait elapsed
    | step hstep => exact ih.step hstep

/-- A run that ends is a sequence of steps. -/
theorem moves_of_run {steps : Nat} (hrun : s.run oracle steps q = some (s', q')) :
    Relation.ReflTransGen (Moves oracle) (s, q) (s', q') := by
  induction steps generalizing s q with
  | zero => cases hrun
  | succ steps ih =>
    rw [Search.run] at hrun
    split at hrun
    next =>
      obtain ⟨rfl, rfl⟩ := Prod.mk.inj (Option.some.inj hrun)
      exact .refl
    next =>
      obtain ⟨⟨s₁, q₁⟩, hstep, hrun⟩ := Option.bind_eq_some_iff.1 hrun
      exact .head (.step hstep) (ih hrun)

/-- A candidate that is drawn is a term of the grammar. -/
theorem Reachable.derives_next (h : Reachable oracle ts g config s q) {ticks : Nat} {t : Term}
    {e : Enumerator g} (hnext : s.enumerator.next ticks = some (some t, e)) :
    ∃ size, g.Derives Grammar.start size t := by
  obtain ⟨drawn, hexplored, -, -⟩ := h.explored
  obtain ⟨hreached, -, -⟩ := hexplored.reached.next hnext
  obtain ⟨size, hsize, -⟩ := hreached.out_spec.2.1 t (by simp)
  exact ⟨size, (Grammar.isLeast_minSize.1 hsize).1⟩

/-! ## The log -/

/-- The conditions in the log are conditions on terms of the grammar. -/
def LogsCandidates (g : Grammar) (ts : TransitionSystem)
    (log : List (Condition × Decision)) : Prop :=
  ∀ entry ∈ log, ∃ t, (∃ size, g.Derives Grammar.start size t) ∧ entry.1 ∈ ts.conditions t

/-- All conditions that are logged while a search moves on are conditions on terms of the
grammar. -/
theorem logsCandidates_of_moves {x : Search g × σ × List (Condition × Decision)}
    (h : Relation.ReflTransGen (Moves oracle.logged) (new ts g config, q, []) x) :
    LogsCandidates g ts x.2.2 := by
  induction h with
  | refl => simp [LogsCandidates]
  | tail hmoves hmove ih =>
    cases hmove with
    | wait => exact ih
    | @step s _ q _ ticks hstep =>
      have hreachable := reachable_of_moves hmoves
      obtain ⟨-, -, rfl, -⟩ := hreachable.explored
      have hagree : ∀ t e, s.enumerator.next ticks = some (some t, e) →
          ∀ c ∈ s.system.conditions t, Oracle.AgreeOn
            (fun q r => q.1 = r ∧ LogsCandidates g s.system q.2) oracle.logged oracle c := by
        rintro t e hnext c hc ⟨q, log⟩ r ⟨rfl, hlog⟩
        refine ⟨rfl, rfl, ?_⟩
        exact List.forall_mem_cons.2 ⟨⟨t, hreachable.derives_next hnext, hc⟩, hlog⟩
      obtain ⟨r, -, -, hlog⟩ := agree_step hagree ⟨rfl, ih⟩ hstep
      exact hlog

/-- A search moves on in the same way if a log is kept. -/
theorem exists_logged_moves {x : Search g × σ}
    (h : Relation.ReflTransGen (Moves oracle) (s, q) x) :
    ∃ log, Relation.ReflTransGen (Moves oracle.logged) (s, q, []) (x.1, x.2, log) := by
  induction h with
  | refl => exact ⟨[], .refl⟩
  | tail _ hmove ih =>
    obtain ⟨log, hmoves⟩ := ih
    cases hmove with
    | wait s q elapsed => exact ⟨log, hmoves.tail (.wait s (q, log) elapsed)⟩
    | @step s s' q q' ticks hstep =>
      have hagree : ∀ t e, s.enumerator.next ticks = some (some t, e) →
          ∀ c ∈ s.system.conditions t,
            Oracle.AgreeOn (fun q r => q = r.1) oracle oracle.logged c := by
        rintro t e - c - q ⟨r, log⟩ rfl
        exact ⟨rfl, rfl⟩
      obtain ⟨⟨q', log'⟩, hstep', rfl⟩ := agree_step hagree (show q = (q, log).1 from rfl) hstep
      exact ⟨log', hmoves.tail (.step hstep')⟩

end Search

end InvariantSearch
