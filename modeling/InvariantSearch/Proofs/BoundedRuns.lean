import InvariantSearch.Proofs.FiniteLanguages
import InvariantSearch.Proofs.Progress
import InvariantSearch.Proofs.Returning

/-!
# Runs with a largest size

With a limit on the sizes of candidates, given or known from the grammar, there are finitely many
candidates (`Grammar.finite_termsWithin`), and every call for the next one returns
(`Enumerator.Reached.exists_next`).

`Search.After` counts the steps of a search and lists the candidates that they draw. A step that
does not end the search draws a candidate (`Paced.step`), and no candidate is drawn twice. So a
search has ended once it has made more steps than there are candidates (`After.le_ncard`), and
every run ends in time (`After.exists_run`). `bounded_runs` puts this together.
-/

namespace InvariantSearch

open Grammar (start)

variable {σ : Type}

/-! ## The candidates within a limit -/

/-- The terms whose smallest derivation is no larger than the given size and than the largest
derivation of the grammar, where there are these. -/
def Grammar.termsWithin (g : Grammar) (maxSize : Option Nat) : Set Term :=
  {t | ∃ s, IsLeast {n | g.Derives start n t} s ∧
    ∀ limit, maxSize = some limit ∨ g.maxSize = some limit → s ≤ limit}

namespace Enumerator

variable {g : Grammar} {e : Enumerator g} {maxSize : Option Nat} {out : List Term}

theorem le_limit_new_iff {s : Nat} :
    (∀ limit, (new g maxSize).limit = some limit → s ≤ limit) ↔
      ∀ limit, maxSize = some limit ∨ g.maxSize = some limit → s ≤ limit := by
  show (∀ limit, Option.merge min maxSize g.maxSize = some limit → s ≤ limit) ↔ _
  cases maxSize <;> cases g.maxSize <;> simp [or_imp, forall_and]

/-- These are the terms that the enumeration includes. -/
theorem mem_termsWithin_iff {t : Term} :
    t ∈ g.termsWithin maxSize ↔ (new g maxSize).Includes t := by
  simp only [Grammar.termsWithin, Set.mem_ofPred_eq, Includes, le_limit_new_iff]
  exact exists_congr fun s => and_congr_left' Grammar.isLeast_minSize.symm

theorem exists_limit_new (h : maxSize.isSome = true ∨ g.maxSize.isSome = true) :
    ∃ limit, (new g maxSize).limit = some limit := by
  show ∃ limit, Option.merge min maxSize g.maxSize = some limit
  revert h
  cases maxSize <;> cases g.maxSize <;> simp

/-- With a limit, every call for the next term returns. -/
theorem Reached.exists_next (h : e.Reached out) {limit : Nat} (hlimit : e.limit = some limit) :
    ∃ ticks r, e.next ticks = some r := by
  obtain ⟨k, hex⟩ := h.exists_exhausted hlimit
  obtain ⟨ticks, e', htake⟩ := exists_take k _ e (.inr ⟨rfl, hex⟩)
  obtain ⟨r, hnext, -⟩ := Option.bind_eq_some_iff.1 htake
  exact ⟨ticks, r, hnext⟩

end Enumerator

/-- With a limit, there are finitely many candidates. -/
theorem Grammar.finite_termsWithin {g : Grammar} {maxSize : Option Nat}
    (h : maxSize.isSome = true ∨ g.maxSize.isSome = true) : (g.termsWithin maxSize).Finite := by
  obtain ⟨limit, hlimit⟩ := Enumerator.exists_limit_new h
  refine (g.termsBelow (limit + 1)).finite_toSet.subset fun t ht => ?_
  obtain ⟨s, hs, hle⟩ := Enumerator.mem_termsWithin_iff.1 ht
  exact mem_termsBelow.2 ⟨s, Nat.lt_succ_of_le (hle limit hlimit), hs⟩

namespace Search

variable {g : Grammar} {oracle : Oracle σ} {ts : TransitionSystem} {config : SearchConfig}
  {s s' : Search g} {n ticks : Nat} {drawn : List Term} {q₀ q q' : σ}

/-! ## Steps and the candidates that they draw -/

/-- The candidate that a step draws, if it draws one. -/
def drawnBy (s : Search g) (ticks : Nat) : List Term :=
  if s.state = .searching ∧ s.outOfBudget = false then
    ((s.enumerator.next ticks).bind Prod.fst).toList
  else []

/-- A search is reached from the beginning by this many steps, which draw these candidates. Each
step may take any number of ticks, and any time may pass between steps. -/
inductive After (oracle : Oracle σ) (ts : TransitionSystem) (g : Grammar) (config : SearchConfig)
    (q₀ : σ) : Nat → List Term → Search g → σ → Prop
  | new : After oracle ts g config q₀ 0 [] (.new ts g config) q₀
  | wait {n : Nat} {drawn : List Term} {s : Search g} {q : σ}
      (h : After oracle ts g config q₀ n drawn s q) (elapsed : Nat) :
      After oracle ts g config q₀ n drawn { s with elapsed } q
  | step {n : Nat} {drawn : List Term} {s s' : Search g} {q q' : σ} {ticks : Nat}
      (h : After oracle ts g config q₀ n drawn s q)
      (hstep : s.step oracle ticks q = some (s', q')) :
      After oracle ts g config q₀ (n + 1) (drawn ++ s.drawnBy ticks) s' q'

/-- What steps keep: the enumeration has returned the candidates drawn, one for each step as long as
the search goes on. -/
structure Paced (config : SearchConfig) (s : Search g) (n : Nat) (drawn : List Term) : Prop where
  reached : s.enumerator.Reached drawn
  limit : s.enumerator.limit = (Enumerator.new g config.maxSize).limit
  pace : s.state = .searching → n = drawn.length
  exhausted : s.state = .exhausted → s.enumerator.exhausted = true

theorem paced_new (ts : TransitionSystem) (g : Grammar) (config : SearchConfig) :
    (new ts g config).Paced config 0 [] where
  reached := Enumerator.reached_new g config.maxSize
  limit := rfl
  pace _ := rfl
  exhausted h := by cases h

theorem drawnBy_of_next (hs : s.state = .searching) (hbudget : s.outOfBudget = false)
    {o : Option Term} {e : Enumerator g} (hnext : s.enumerator.next ticks = some (o, e)) :
    s.drawnBy ticks = o.toList := by
  rw [drawnBy, if_pos ⟨hs, hbudget⟩, hnext]
  rfl

/-- No conclusion about a candidate is that all candidates are ruled out. -/
theorem conclude_state_ne_exhausted (s : Search g) (t : Term)
    (ds : List (ConditionKind × Decision)) (hs : s.state = .searching) :
    (s.conclude t ds).state ≠ .exhausted := by
  unfold conclude
  dsimp only
  split
  next => simp
  next =>
    split
    next => simp
    next => simp [hs]

/-- A candidate that is drawn is counted, whatever is concluded about it. -/
theorem Paced.draw (h : s.Paced config n drawn) (hs : s.state = .searching)
    (hbudget : s.outOfBudget = false) {e : Enumerator g} {t : Term}
    (hnext : s.enumerator.next ticks = some (some t, e)) (henumerator : s'.enumerator = e)
    (hstate : s'.state ≠ .exhausted) :
    s'.Paced config (n + 1) (drawn ++ s.drawnBy ticks) := by
  obtain ⟨hreached, hlimit, -⟩ := h.reached.next hnext
  rw [drawnBy_of_next hs hbudget hnext]
  refine ⟨henumerator ▸ hreached, henumerator ▸ hlimit.trans h.limit, fun _ => ?_,
    fun hex => absurd hex hstate⟩
  rw [h.pace hs]
  simp

theorem Paced.step (h : s.Paced config n drawn) (hstep : s.step oracle ticks q = some (s', q')) :
    s'.Paced config (n + 1) (drawn ++ s.drawnBy ticks) := by
  cases stepped_of_step hstep with
  | final hs =>
    have hnone : s.drawnBy ticks = [] := if_neg fun hboth => hs hboth.1
    rw [hnone, List.append_nil]
    exact ⟨h.reached, h.limit, fun hsearching => absurd hsearching hs, h.exhausted⟩
  | gaveUp hs hbudget =>
    have hnone : s.drawnBy ticks = [] := if_neg fun hboth => by simp [hbudget] at hboth
    rw [hnone, List.append_nil]
    exact ⟨h.reached, h.limit, nofun, nofun⟩
  | ended hs hbudget hnext =>
    obtain ⟨hreached, hlimit, hend⟩ := h.reached.next hnext
    rw [drawnBy_of_next hs hbudget hnext]
    exact ⟨hreached, hlimit.trans h.limit, nofun, fun _ => hend rfl⟩
  | refuted hs hbudget hnext => exact h.draw hs hbudget hnext rfl (by simp [hs])
  | decided hs hbudget hnext =>
    exact h.draw hs hbudget hnext (conclude_keeps _ _ _).2.2.1
      (conclude_state_ne_exhausted _ _ _ hs)

theorem After.paced (h : After oracle ts g config q₀ n drawn s q) : s.Paced config n drawn := by
  induction h with
  | new => exact paced_new ts g config
  | wait _ _ ih => exact ⟨ih.reached, ih.limit, ih.pace, ih.exhausted⟩
  | step _ hstep ih => exact ih.step hstep

/-! ## Runs end -/

/-- No candidate is drawn twice, and only candidates within the limit are drawn. -/
theorem After.drawn_spec (h : After oracle ts g config q₀ n drawn s q) :
    drawn.Nodup ∧ ∀ t ∈ drawn, t ∈ g.termsWithin config.maxSize := by
  obtain ⟨hnodup, hincluded, -⟩ := h.paced.reached.out_spec
  refine ⟨hnodup, fun t ht => Enumerator.mem_termsWithin_iff.2 ?_⟩
  exact (Enumerator.includes_congr h.paced.limit).1 (Enumerator.includes_iff.2 (hincluded t ht))

/-- Once a search is exhausted all candidates are drawn. -/
theorem After.mem_drawn (h : After oracle ts g config q₀ n drawn s q) (hs : s.state = .exhausted)
    {t : Term} (ht : t ∈ g.termsWithin config.maxSize) : t ∈ drawn := by
  have hincludes := Enumerator.mem_termsWithin_iff.1 ht
  obtain ⟨size, hsize, hincluded⟩ :=
    Enumerator.includes_iff.1 ((Enumerator.includes_congr h.paced.limit).2 hincludes)
  exact (h.paced.reached.finished (h.paced.exhausted hs)).mem_out hsize hincluded

section Bounded

variable (hbound : config.maxSize.isSome = true ∨ g.maxSize.isSome = true)

include hbound

/-- As long as a search goes on it has made no more steps than there are candidates. -/
theorem After.le_ncard (h : After oracle ts g config q₀ n drawn s q) (hs : s.state = .searching) :
    n ≤ (g.termsWithin config.maxSize).ncard := by
  obtain ⟨hnodup, hwithin⟩ := h.drawn_spec
  calc n = drawn.length := h.paced.pace hs
    _ ≤ (g.termsWithin config.maxSize).ncard :=
      length_le_ncard_of_nodup hnodup (Grammar.finite_termsWithin hbound) hwithin

theorem After.exists_next (h : After oracle ts g config q₀ n drawn s q) :
    ∃ ticks r, s.enumerator.next ticks = some r := by
  obtain ⟨limit, hlimit⟩ := Enumerator.exists_limit_new hbound
  exact h.paced.reached.exists_next (h.paced.limit.trans hlimit)

theorem After.exists_step (h : After oracle ts g config q₀ n drawn s q) :
    ∃ ticks s' q', s.step oracle ticks q = some (s', q') := by
  by_cases hs : s.state = .searching
  · cases hbudget : s.outOfBudget with
    | true => exact ⟨0, _, _, step_of_outOfBudget hs hbudget oracle 0 q⟩
    | false =>
      obtain ⟨ticks, ⟨_ | t, e⟩, hnext⟩ := h.exists_next hbound
      · exact ⟨ticks, _, _, step_of_end hs hbudget oracle hnext q⟩
      · exact ⟨ticks, _, _, step_of_next hs hbudget oracle hnext q⟩
  · exact ⟨0, s, q, step_of_final hs oracle 0 q⟩

/-- A run from any point on ends after at most one step more than there are candidates. -/
theorem After.exists_run (h : After oracle ts g config q₀ n drawn s q)
    (hn : n ≤ (g.termsWithin config.maxSize).ncard + 1) :
    ∃ steps m drawn' s' q', s.run oracle steps q = some (s', q') ∧
      After oracle ts g config q₀ m drawn' s' q' ∧ s'.state ≠ .searching ∧
      m ≤ (g.termsWithin config.maxSize).ncard + 1 := by
  induction hleft : (g.termsWithin config.maxSize).ncard + 1 - n using Nat.strong_induction_on
    generalizing n drawn s q with
  | _ left ih =>
    by_cases hs : s.state = .searching
    · obtain ⟨ticks, s₁, q₁, hstep⟩ := h.exists_step hbound
      have hle := h.le_ncard hbound hs
      obtain ⟨steps, m, drawn', s', q', hrun, hafter, hfinal, hm⟩ :=
        ih _ (by omega) (h.step hstep) (Nat.succ_le_succ hle) rfl
      -- enough ticks for the step, and enough steps for the rest of the run
      have hstep' := step_mono (le_max_left ticks steps) hstep
      have hrun' := run_mono (le_max_right ticks steps) hrun
      exact ⟨_, m, drawn', s', q', (run_of_step hs hstep').trans hrun', hafter, hfinal, hm⟩
    · exact ⟨1, n, drawn, s, q, run_of_final hs 0 q, h, hs, hn⟩

end Bounded

/-- Let a limit on the sizes of candidates be given, or let the largest derivation of the grammar be
known. Then there are finitely many candidates. Wherever a search gets to by steps, the call for the
next candidate returns and so does the next step, whatever the oracle answers. The search has ended
once it has made more steps than there are candidates; it has drawn candidates alone, each once, and
all of them if it is exhausted. A run ends, after at most one step more than there are
candidates. -/
theorem bounded_runs (oracle : Oracle σ) (ts : TransitionSystem) (g : Grammar)
    (config : SearchConfig) (hbound : config.maxSize.isSome = true ∨ g.maxSize.isSome = true)
    (q₀ : σ) :
    (g.termsWithin config.maxSize).Finite ∧
    (∀ n drawn s q, After oracle ts g config q₀ n drawn s q →
      (∃ ticks r, s.enumerator.next ticks = some r) ∧
      (∃ ticks s' q', s.step oracle ticks q = some (s', q')) ∧
      ((g.termsWithin config.maxSize).ncard < n → s.state ≠ .searching) ∧
      drawn.Nodup ∧ (∀ t ∈ drawn, t ∈ g.termsWithin config.maxSize) ∧
      (s.state = .exhausted → ∀ t ∈ g.termsWithin config.maxSize, t ∈ drawn)) ∧
    ∃ steps n drawn s q, (new ts g config).run oracle steps q₀ = some (s, q) ∧
      After oracle ts g config q₀ n drawn s q ∧ s.state ≠ .searching ∧
      n ≤ (g.termsWithin config.maxSize).ncard + 1 := by
  refine ⟨Grammar.finite_termsWithin hbound, fun n drawn s q h => ?_,
    After.new.exists_run hbound (Nat.zero_le _)⟩
  obtain ⟨hnodup, hwithin⟩ := h.drawn_spec
  exact ⟨h.exists_next hbound, h.exists_step hbound,
    fun hlt hs => absurd (h.le_ncard hbound hs) (Nat.not_le_of_lt hlt), hnodup, hwithin,
    fun hs t ht => h.mem_drawn hs ht⟩

/-- A bare rule leads from the only nonterminal back to itself, so that all derivations but the
smallest repeat one term. Yet with a largest size of 3 the search ends after at most two steps, here
with an oracle that gives one counterexample after the other. -/
theorem bounded_runs_bareLoop :
    let g := single [.bool true, .id "B"]
    let config : SearchConfig := ⟨none, none, some 3, false⟩
    let oracle : Oracle Int64 := fun _ i => (.invalid (.ofList [("b", .int i)]), i + 1)
    (config.maxSize.isSome = true ∨ g.maxSize.isSome = true) ∧
      g.termsWithin config.maxSize = {.bool true} ∧
      ∃ steps n drawn s q, (new freeBit g config).run oracle steps 0 = some (s, q) ∧
        After oracle freeBit g config 0 n drawn s q ∧ s.state ≠ .searching ∧ n ≤ 2 := by
  intro g config oracle
  have hbound : config.maxSize.isSome = true ∨ g.maxSize.isSome = true := .inl rfl
  have hloop : ∀ rule ∈ [Term.bool true, .id "B"], rule = .bool true ∨ rule = .id "B" := by simp
  have hterms : g.termsWithin config.maxSize = {.bool true} := by
    ext t
    constructor
    · rintro ⟨s, hs, -⟩
      exact eq_of_derives_single hloop hs.1
    · rintro rfl
      have hmax : g.maxSize = none := by decide +kernel
      refine ⟨1, ⟨derives_single (by simp), fun n hn => hn.size_pos⟩, fun limit hlimit => ?_⟩
      rcases hlimit with hlimit | hlimit
      · obtain rfl := Option.some.inj hlimit
        decide
      · cases hmax.symm.trans hlimit
  obtain ⟨-, -, steps, n, drawn, s, q, hrun, hafter, hfinal, hn⟩ :=
    bounded_runs oracle freeBit g config hbound 0
  rw [hterms, Set.ncard_singleton] at hn
  exact ⟨hbound, hterms, steps, n, drawn, s, q, hrun, hafter, hfinal, hn⟩

end Search

end InvariantSearch
