import InvariantSearch.CommandLine.Settings
import InvariantSearch.Proofs.Accounting
import InvariantSearch.Proofs.Returning

/-!
# Searches that are cut off

A limit on time is looked at before a candidate is drawn, and nowhere else. So a search that gives
up when its time is used up ends as one that may draw so many candidates as were drawn until then,
however long its steps took (`Search.exists_run_cut`). This is why a run is told by `RunTimes` how
many candidates are drawn in a check, and looks at no clock (`Settings.exists_run_cutoff`).
-/

namespace InvariantSearch

variable {σ : Type}

namespace Search

variable {g : Grammar} {oracle : Oracle σ} {s s' : Search g} {q q' : σ} {n : Nat}

/-- The same search, for which no time passes, and which may draw `n` candidates at most. -/
def cut (s : Search g) (n : Nat) : Search g :=
  { s with
    config := { s.config with
      maxIterations := Option.merge min s.config.maxIterations (some n)
      timeout := none }
    elapsed := 0 }

theorem outOfBudget_cut : (s.cut n).outOfBudget =
    (s.config.maxIterations.any (· ≤ s.stats.candidates) || decide (n ≤ s.stats.candidates)) := by
  unfold outOfBudget cut
  cases s.config.maxIterations with
  | none => simp
  | some m => simp

/-- A search with time left is not cut off if the number of candidates is not reached. -/
theorem outOfBudget_cut_eq_false (hbudget : s.outOfBudget = false) (hlt : s.stats.candidates < n) :
    (s.cut n).outOfBudget = false := by
  rw [outOfBudget_cut, (Bool.or_eq_false_iff.1 hbudget).1]
  simpa using hlt

theorem conclude_cut (s : Search g) (t : Term) (ds : List (ConditionKind × Decision)) :
    (s.cut n).conclude t ds = (s.conclude t ds).cut n := by
  cases h : firstUnknown ds with
  | some p => rw [conclude_of_unknown _ t h, conclude_of_unknown _ t h]; rfl
  | none => rw [conclude_of_decided _ t h, conclude_of_decided _ t h]; rfl

theorem process_cut (oracle : Oracle σ) (s : Search g) (t : Term) (q : σ) :
    (s.cut n).process oracle t q = ((s.process oracle t q).1.cut n, (s.process oracle t q).2) := by
  have hstore : (s.cut n).store.firstViolated (s.cut n).system t =
      s.store.firstViolated s.system t := rfl
  cases hviolated : s.store.firstViolated s.system t with
  | some cex =>
    simp only [process, hstore, hviolated]
    rfl
  | none =>
    simp only [process, hstore, hviolated]
    let counted : Search g := { s with stats := { s.stats with
      candidates := s.stats.candidates + 1 } }
    exact Prod.ext (conclude_cut counted t (counted.check oracle t q).1) rfl

/-- A step that is within all limits is taken in the same way. -/
theorem step_cut {ticks : Nat} (hs : s.state = .searching) (hbudget : s.outOfBudget = false)
    (hlt : s.stats.candidates < n) (hstep : s.step oracle ticks q = some (s', q')) :
    (s.cut n).step oracle ticks q = some (s'.cut n, q') := by
  have hcut := outOfBudget_cut_eq_false hbudget hlt
  rcases next_of_step hs hbudget hstep with ⟨e, hnext, hend⟩ | ⟨t, e, hnext, hdrawn⟩
  · obtain ⟨rfl, rfl⟩ := Prod.mk.inj hend
    exact step_of_end (s := s.cut n) hs hcut oracle hnext _
  · rw [step_of_next (s := s.cut n) hs hcut oracle hnext]
    have hprocess := process_cut (n := n) oracle { s with enumerator := e } t q
    rw [← hdrawn] at hprocess
    exact congrArg some hprocess

/-- A search that gives up is cut off at the candidates that it has drawn. -/
theorem step_cut_of_outOfBudget (hs : s.state = .searching) (oracle : Oracle σ) (ticks : Nat)
    (q : σ) :
    (s.cut s.stats.candidates).step oracle ticks q =
      some (({ s with state := .timeout } : Search g).cut s.stats.candidates, q) :=
  step_of_outOfBudget (s := s.cut _) hs (by rw [outOfBudget_cut]; simp) oracle ticks q

/-- A step within the limits draws a candidate, or ends the search for the lack of one. -/
theorem candidates_of_step {ticks : Nat} (hs : s.state = .searching)
    (hbudget : s.outOfBudget = false) (hstep : s.step oracle ticks q = some (s', q')) :
    s'.stats.candidates = s.stats.candidates + 1 ∨
      s'.stats.candidates = s.stats.candidates ∧ s'.state = .exhausted := by
  rcases next_of_step hs hbudget hstep with ⟨e, hnext, hend⟩ | ⟨t, e, hnext, hdrawn⟩
  · obtain ⟨rfl, rfl⟩ := Prod.mk.inj hend
    exact .inr ⟨rfl, rfl⟩
  · obtain ⟨-, -, -, hcandidates⟩ := process_keeps oracle { s with enumerator := e } t q
    rw [← hdrawn] at hcandidates
    exact .inl hcandidates

/-- From wherever a search goes on by steps and the passing of time until it ends, it is run to the
same end if it is cut off after the right number of candidates. -/
theorem exists_run_cut_of_moves {x z : Search g × σ} (h : Relation.ReflTransGen (Moves oracle) x z)
    (hz : z.1.state ≠ .searching) : ∃ n steps, x.1.stats.candidates ≤ n ∧
      (x.1.state ≠ .searching → x.1.stats.candidates < n) ∧
      (x.1.cut n).run oracle steps x.2 = some (z.1.cut n, z.2) := by
  induction h using Relation.ReflTransGen.head_induction_on with
  | refl =>
    exact ⟨z.1.stats.candidates + 1, 1, Nat.le_succ _, fun _ => Nat.lt_succ_self _,
      run_of_final (s := z.1.cut _) hz 0 z.2⟩
  | head hmove hmoves ih =>
    obtain ⟨n, steps, hle, hfinal, hrun⟩ := ih
    cases hmove with
    | wait => exact ⟨n, steps, hle, hfinal, hrun⟩
    | @step s s' q q' ticks hstep =>
      by_cases hs : s.state = .searching
      · cases hbudget : s.outOfBudget with
        | true =>
          -- The search ends here, as its time is used up.
          rw [step_of_outOfBudget hs hbudget] at hstep
          obtain ⟨rfl, rfl⟩ := Prod.mk.inj (Option.some.inj hstep)
          obtain ⟨elapsed, rfl⟩ := eq_of_final_moves hmoves (by simp)
          have hcut := step_cut_of_outOfBudget hs oracle 1 q
          exact ⟨s.stats.candidates, 2, Nat.le_refl _, absurd hs,
            (run_of_step (s := s.cut _) hs hcut).trans
              (run_of_final (s := Search.cut { s with state := .timeout } _) (by simp [cut]) 0 q)⟩
        | false =>
          have hlt : s.stats.candidates < n := by
            rcases candidates_of_step hs hbudget hstep with hdrawn | ⟨hsame, hended⟩
            · exact Nat.lt_of_succ_le (hdrawn.symm.le.trans hle)
            · exact hsame ▸ hfinal (by simp [hended])
          have hcut := step_cut hs hbudget hlt (step_mono (le_max_left ticks steps) hstep)
          refine ⟨n, max ticks steps + 1, hlt.le, absurd hs, ?_⟩
          rw [run_of_step (s := s.cut n) hs hcut]
          exact run_mono (le_max_right ticks steps) hrun
      · rw [step_of_final hs] at hstep
        obtain ⟨rfl, rfl⟩ := Prod.mk.inj (Option.some.inj hstep)
        exact ⟨n, steps, hle, hfinal, hrun⟩

/-- Let a search with any limit on time end, while any time passes between its steps. Then it ends
in the same way without that limit, if it may draw no more than some number of candidates. -/
theorem exists_run_cut {ts : TransitionSystem} {config : SearchConfig}
    (h : Relation.ReflTransGen (Moves oracle) (new ts g config, q) (s, q'))
    (hs : s.state ≠ .searching) : ∃ n steps s',
      (new ts g { config with
        maxIterations := Option.merge min config.maxIterations (some n)
        timeout := none }).run oracle steps q = some (s', q') ∧
      s'.state = s.state ∧ s'.stats = s.stats ∧ s'.store = s.store := by
  obtain ⟨n, steps, -, -, hrun⟩ := exists_run_cut_of_moves h hs
  exact ⟨n, steps, _, hrun, rfl, rfl, rfl⟩

end Search

namespace Settings

/-- A number of candidates takes the place of the limit on time. -/
theorem searchConfig_some {settings : Settings} {d : Duration} (h : settings.budget = some d)
    (n : Nat) : settings.searchConfig (some n) = { settings.searchConfig none with
      maxIterations := Option.merge min (settings.searchConfig none).maxIterations (some n)
      timeout := none } := by
  simp [searchConfig, h]

/-- Whatever a clock shows in the search of a check, there is a number of candidates such that the
search ends in the same way when it is cut off there. -/
theorem exists_run_cutoff {settings : Settings} {d : Duration} (hbudget : settings.budget = some d)
    {g : Grammar} {oracle : Oracle σ} {ts : TransitionSystem} {s : Search g} {q q' : σ}
    (h : Relation.ReflTransGen (Search.Moves oracle)
      (.new ts g (settings.searchConfig none), q) (s, q')) (hs : s.state ≠ .searching) :
    ∃ n steps s', (Search.new ts g (settings.searchConfig (some n))).run oracle steps q =
        some (s', q') ∧
      s'.state = s.state ∧ s'.stats = s.stats ∧ s'.store = s.store := by
  obtain ⟨n, steps, s', hrun, hend⟩ := Search.exists_run_cut h hs
  rw [← searchConfig_some hbudget] at hrun
  exact ⟨n, steps, s', hrun, hend⟩

end Settings

end InvariantSearch
