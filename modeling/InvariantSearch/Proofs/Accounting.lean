import InvariantSearch.Proofs.Modes
import InvariantSearch.Proofs.Stepping

/-!
# What a search counts

`Search.Accounted` says how the counters of a search hang together, and that as many conditions are
counted as the oracle was asked about. It holds in the beginning, and every step keeps it
(`Accounted.step`), whatever the oracle answers. A candidate is found only in a step in which the
oracle finds all three of its conditions valid (`valid_of_found`), and nothing moves a search that
is in a final state (`eq_of_final_moves`). `accounting` puts this together.
-/

namespace InvariantSearch

open Oracle (byKind)

variable {σ : Type}

/-- How many candidates the oracle was asked about. -/
def SearchStats.accepted (stats : SearchStats) : Nat := stats.candidates - stats.rejected

/-- How many of the candidates that the oracle was asked about are without a counterexample: the
last one, if the search ended with it. -/
def SearchState.unrefuted : SearchState → Nat
  | .found _ | .unknown .. => 1
  | .searching | .exhausted | .timeout => 0

/-! ## The answers about one candidate -/

namespace Oracle

variable {oracle : Oracle σ} {all : Bool} {cs : List Condition} {q q' : σ}
  {answers : List (Condition × Decision)}

/-- If the answers end with the first that is not "valid", and none is "unknown", then all
conditions are found valid or there is one counterexample. -/
theorem Asked.counterexamples_cases (h : oracle.Asked false cs q answers q')
    (hdecided : Search.firstUnknown (byKind answers) = none) :
    Search.counterexamples (byKind answers) = [] ∧ answers.length = cs.length ∨
      (Search.counterexamples (byKind answers)).length = 1 := by
  induction h with
  | nil => exact .inl ⟨rfl, rfl⟩
  | @stop c cs d _ _ _ hd _ =>
    cases d with
    | valid => exact absurd rfl hd
    | invalid a => exact .inr rfl
    | unknown reason => cases hdecided
  | @cons c cs d _ _ _ answers _ hd _ ih =>
    obtain rfl : d = .valid := hd.resolve_left (by simp)
    exact (ih hdecided).imp (fun h => ⟨h.1, congrArg Nat.succ h.2⟩) id

/-- If as many answers are given as there are conditions, and all are "valid", these are the
conditions that are found valid. -/
theorem Asked.eq_valid (h : oracle.Asked all cs q answers q') (length : answers.length = cs.length)
    (hvalid : ∀ p ∈ byKind answers, p.2 = .valid) : answers = cs.map fun c => (c, .valid) := by
  have hcs : answers.map Prod.fst = cs := h.begins.eq_of_length (by simpa using length)
  calc answers = answers.map id := (List.map_id _).symm
    _ = (answers.map Prod.fst).map fun c => (c, .valid) := by
      rw [List.map_map]
      refine List.map_congr_left fun p hp => ?_
      have hp : p.2 = .valid := hvalid (p.1.kind, p.2) (List.mem_map_of_mem hp)
      exact Prod.ext rfl hp
    _ = cs.map fun c => (c, .valid) := by rw [hcs]

end Oracle

namespace Search

variable {g : Grammar} {oracle : Oracle σ} {ts : TransitionSystem} {config : SearchConfig}
  {s s' : Search g} {t : Term} {q q' : σ} {asked : Nat} {log log' : List (Condition × Decision)}
  {ticks : Nat}

/-! ## The counters -/

/-- The counters of a search with these limits and options, whose oracle was asked about `asked`
conditions. -/
structure Accounted (config : SearchConfig) (s : Search g) (asked : Nat) : Prop where
  config_eq : s.config = config
  stored : s.store.length = s.stats.counterexamples
  drawn : ∀ n, config.maxIterations = some n → s.stats.candidates ≤ n
  rejected : s.stats.rejected ≤ s.stats.candidates
  queries : s.stats.queries = asked
  parallel : config.parallel = true → s.stats.queries = 3 * s.stats.accepted
  sequential : config.parallel = false → s.stats.accepted ≤ s.stats.queries ∧
    s.stats.queries ≤ 3 * s.stats.accepted ∧
    s.stats.counterexamples + s.state.unrefuted = s.stats.accepted

theorem accounted_new (ts : TransitionSystem) (g : Grammar) (config : SearchConfig) :
    (new ts g config).Accounted config 0 where
  config_eq := rfl
  stored := rfl
  drawn _ _ := Nat.zero_le _
  rejected := Nat.le_refl _
  queries := rfl
  parallel _ := rfl
  sequential _ := ⟨Nat.le_refl _, Nat.le_refl _, rfl⟩

theorem lt_of_outOfBudget (h : s.outOfBudget = false) {n : Nat}
    (hn : s.config.maxIterations = some n) : s.stats.candidates < n := by
  simpa [outOfBudget, hn] using (Bool.or_eq_false_iff.1 h).1

/-- The answers about a candidate are counted, and so are the counterexamples among them. -/
theorem Accounted.decided (h : s.Accounted config asked) (hs : s.state = .searching)
    (hbudget : s.outOfBudget = false) (e : Enumerator g) {answers : List (Condition × Decision)}
    (hasked : oracle.Asked s.config.parallel (s.system.conditions t) q answers q') :
    Accounted config ({ s with
      enumerator := e
      stats := { s.stats with candidates := s.stats.candidates + 1 } }.conclude t (byKind answers))
      (asked + answers.length) := by
  obtain ⟨rfl, hstored, -, hrejected, hqueries, hparallel, hsequential⟩ := h
  have hdrawn : ∀ n, s.config.maxIterations = some n → s.stats.candidates + 1 ≤ n :=
    fun n hn => lt_of_outOfBudget hbudget hn
  have hpos : 0 < answers.length := hasked.length_pos (by simp [TransitionSystem.conditions])
  have hle : answers.length ≤ 3 := hasked.length_le
  have hlength : (byKind answers).length = answers.length := List.length_map _
  simp only [hs, SearchState.unrefuted, SearchStats.accepted] at hparallel hsequential
  cases hunknown : firstUnknown (byKind answers) with
  | some p =>
    rw [conclude_of_unknown _ t hunknown]
    refine ⟨rfl, hstored, hdrawn, Nat.le_succ_of_le hrejected, ?_, fun hmode => ?_, fun hmode => ?_⟩
    all_goals simp only [SearchState.unrefuted, SearchStats.accepted, hlength]
    · rw [hqueries]
    · rw [hmode] at hasked
      have hthree : answers.length = 3 := hasked.length_eq
      have := hparallel hmode
      omega
    · have := hsequential hmode
      omega
  | none =>
    rw [conclude_of_decided _ t hunknown]
    refine ⟨rfl, ?_, hdrawn, Nat.le_succ_of_le hrejected, ?_, fun hmode => ?_, fun hmode => ?_⟩
    · simp [hstored]
    all_goals simp only [SearchStats.accepted, hlength]
    · rw [hqueries]
    · rw [hmode] at hasked
      have hthree : answers.length = 3 := hasked.length_eq
      have := hparallel hmode
      omega
    · rw [hmode] at hasked
      have := hsequential hmode
      refine ⟨by omega, by omega, ?_⟩
      rcases hasked.counterexamples_cases hunknown with ⟨hnone, hall⟩ | hone
      · have hthree : answers.length = 3 := hall
        simp only [hnone, hthree, List.isEmpty_nil, decide_true, Bool.and_self, if_true,
          List.length_nil, SearchState.unrefuted]
        omega
      · have hsome : (counterexamples (byKind answers)).isEmpty = false := by
          cases hcexs : counterexamples (byKind answers) with
          | nil => simp [hcexs] at hone
          | cons => rfl
        simp only [hone, hsome, Bool.and_false, Bool.false_eq_true, if_false, hs,
          SearchState.unrefuted]
        omega

/-- A step keeps the counters right, with the conditions that are logged in it. -/
theorem Accounted.step (h : s.Accounted config log.length)
    (hstep : s.step oracle.logged ticks (q, log) = some (s', q', log')) :
    s'.Accounted config log'.length := by
  generalize hq : (q, log) = x at hstep
  generalize hq' : (q', log') = x' at hstep
  cases stepped_of_step hstep with
  | final =>
    obtain ⟨rfl, rfl⟩ := Prod.mk.inj (hq.trans hq'.symm)
    exact h
  | gaveUp hs =>
    obtain ⟨rfl, rfl⟩ := Prod.mk.inj (hq.trans hq'.symm)
    have hsequential := h.sequential
    rw [hs] at hsequential
    exact { h with sequential := hsequential }
  | ended hs =>
    obtain ⟨rfl, rfl⟩ := Prod.mk.inj (hq.trans hq'.symm)
    have hsequential := h.sequential
    rw [hs] at hsequential
    exact { h with sequential := hsequential }
  | refuted hs hbudget =>
    obtain ⟨rfl, rfl⟩ := Prod.mk.inj (hq.trans hq'.symm)
    have haccepted : s.stats.candidates + 1 - (s.stats.rejected + 1) = s.stats.accepted :=
      Nat.add_sub_add_right ..
    obtain ⟨rfl, hstored, -, hrejected, hqueries, hparallel, hsequential⟩ := h
    refine ⟨rfl, hstored, fun n hn => lt_of_outOfBudget hbudget hn, Nat.succ_le_succ hrejected,
      hqueries, ?_, ?_⟩
    · rw [SearchStats.accepted, haccepted]
      exact hparallel
    · rw [SearchStats.accepted, haccepted]
      exact hsequential
  | @decided hs hbudget _ _ _ _ answers _ hasked =>
    subst hq hq'
    obtain ⟨hasked', rfl⟩ := hasked.of_logged
    rw [List.length_append, List.length_reverse, Nat.add_comm answers.length]
    exact h.decided hs hbudget _ hasked'

/-- The counters are right wherever a search gets to. -/
theorem accounted_of_moves {x : Search g × σ × List (Condition × Decision)}
    (h : Relation.ReflTransGen (Moves oracle.logged) (new ts g config, q, []) x) :
    x.1.Accounted config x.2.2.length := by
  induction h with
  | refl => exact accounted_new ts g config
  | tail _ hmove ih =>
    cases hmove with
    | wait => exact { ih with }
    | step hstep => exact ih.step hstep

/-! ## Final states -/

/-- A candidate is found only where it was drawn and the store admitted it, and then the oracle
found its three conditions valid in the very same step. -/
theorem valid_of_found (hs : s.state ≠ .found t)
    (hstep : s.step oracle.logged ticks (q, log) = some (s', q', log'))
    (hs' : s'.state = .found t) :
    s.state = .searching ∧ (∃ e, s.enumerator.next ticks = some (some t, e)) ∧
      s.store.admits s.system t = true ∧
      log' = [(s.system.condition .safety t, .valid), (s.system.condition .step t, .valid),
        (s.system.condition .init t, .valid)] ++ log := by
  generalize hq : (q, log) = x at hstep
  generalize hq' : (q', log') = x' at hstep
  cases stepped_of_step hstep with
  | final => exact absurd hs' hs
  | gaveUp | ended => cases hs'
  | refuted => exact absurd hs' hs
  | @decided hsearching _ e u hnext hadmitted answers _ hasked =>
    subst hq hq'
    obtain ⟨hasked', rfl⟩ := hasked.of_logged
    cases hunknown : firstUnknown (byKind answers) with
    | some p =>
      rw [conclude_of_unknown _ u hunknown] at hs'
      cases hs'
    | none =>
      rw [conclude_of_decided _ u hunknown] at hs'
      dsimp only at hs'
      split at hs'
      next hfound =>
        obtain rfl := SearchState.found.inj hs'
        obtain ⟨hthree, hcexs⟩ := Bool.and_eq_true_iff.1 hfound
        have hvalid := valid_of_no_counterexamples hunknown (List.isEmpty_iff.1 hcexs)
        have hlength : answers.length = 3 :=
          (List.length_map _).symm.trans (of_decide_eq_true hthree)
        have hanswers := hasked'.eq_valid hlength hvalid
        refine ⟨hsearching, ⟨e, hnext⟩, by rw [Store.admits, hadmitted]; rfl, ?_⟩
        rw [hanswers]
        rfl
      next => exact absurd hs' hs

/-- In a final state only time passes. -/
theorem eq_of_final_moves {x : Search g × σ} (h : Relation.ReflTransGen (Moves oracle) (s, q) x)
    (hs : s.state ≠ .searching) : ∃ elapsed, x = ({ s with elapsed }, q) := by
  induction h with
  | refl => exact ⟨s.elapsed, rfl⟩
  | tail _ hmove ih =>
    obtain ⟨elapsed, rfl⟩ := ih
    cases hmove with
    | wait => exact ⟨_, rfl⟩
    | step hstep =>
      have hfinal : ({ s with elapsed } : Search g).state ≠ .searching := hs
      rw [step_of_final hfinal] at hstep
      exact ⟨elapsed, (Option.some.inj hstep).symm⟩

/-- Let an oracle answer what it likes. Wherever a search gets to by steps, its counters are right.
If a further step finds a candidate, this was drawn and admitted in that step, and its three
conditions are the only ones that the oracle was asked about in it, and found valid. From a final
state on nothing changes but the time, and the oracle is not asked any more. -/
theorem accounting (ts : TransitionSystem) (g : Grammar) (config : SearchConfig)
    (oracle : Oracle σ) {s : Search g} {q q' : σ} {log : List (Condition × Decision)}
    (h : Relation.ReflTransGen (Moves oracle.logged) (new ts g config, q, []) (s, q', log)) :
    s.Accounted config log.length ∧
    (∀ ticks t s₁ q₁ log₁, s.step oracle.logged ticks (q', log) = some (s₁, q₁, log₁) →
      s.state ≠ .found t → s₁.state = .found t →
      s.state = .searching ∧ (∃ e, s.enumerator.next ticks = some (some t, e)) ∧
        s.store.admits ts t = true ∧
        log₁ = [(ts.condition .safety t, .valid), (ts.condition .step t, .valid),
          (ts.condition .init t, .valid)] ++ log) ∧
    (s.state ≠ .searching →
      ∀ s₁ q₁ log₁, Relation.ReflTransGen (Moves oracle.logged) (s, q', log) (s₁, q₁, log₁) →
        s₁ = { s with elapsed := s₁.elapsed } ∧ q₁ = q' ∧ log₁ = log) := by
  refine ⟨accounted_of_moves h, fun ticks t s₁ q₁ log₁ hstep hs hs₁ => ?_, ?_⟩
  · obtain ⟨-, -, rfl, -⟩ := (reachable_of_moves h).explored
    exact valid_of_found hs hstep hs₁
  · intro hs s₁ q₁ log₁ hmoves
    obtain ⟨elapsed, heq⟩ := eq_of_final_moves hmoves hs
    obtain ⟨rfl, rfl, rfl⟩ : s₁ = { s with elapsed } ∧ q₁ = q' ∧ log₁ = log := by
      simpa only [Prod.mk.injEq] using heq
    exact ⟨rfl, rfl, rfl⟩

/-- A free bit whose conditions are all found valid: the candidate `b` is found in the first step,
after three conditions, and then only time passes. -/
theorem accounting_freeBit : ∃ s log,
    Relation.ReflTransGen (Moves (Oracle.ofFunction (Decision.trying [])).logged)
      (new freeBit (single [.id "b"]) ⟨some 1, none, none, false⟩, (), []) (s, (), log) ∧
    s.state = .found (.id "b") ∧ s.stats = ⟨1, 0, 3, 0⟩ ∧
    s.Accounted ⟨some 1, none, none, false⟩ 3 ∧
    ∀ s₁ q₁ log₁, Relation.ReflTransGen (Moves (Oracle.ofFunction (Decision.trying [])).logged)
      (s, (), log) (s₁, q₁, log₁) →
        s₁ = { s with elapsed := s₁.elapsed } ∧ q₁ = () ∧ log₁ = log := by
  have hlimit : (Enumerator.new (single [.id "b"]) none).limit = some 1 := by decide +kernel
  have hfirst := Enumerator.next_new (g := single [.id "b"]) none
    (r := ⟨.id "b", [], 1⟩) rfl rfl rfl (by rw [Enumerator.excludes, hlimit]; rfl) 1
  obtain ⟨s, log, hstep, hstate, hstats⟩ : ∃ s log,
      (new freeBit (single [.id "b"]) ⟨some 1, none, none, false⟩).step
        (Oracle.ofFunction (Decision.trying [])).logged 2 ((), []) = some (s, (), log) ∧
      s.state = .found (.id "b") ∧ s.stats = ⟨1, 0, 3, 0⟩ :=
    ⟨_, _, step_of_next rfl rfl _ hfirst _, by decide +kernel, by decide +kernel⟩
  have hmoves := Relation.ReflTransGen.single (Moves.step hstep)
  obtain ⟨haccounted, -, hfinal⟩ := accounting freeBit (single [.id "b"]) _ _ hmoves
  have hlog : log.length = 3 := haccounted.queries.symm.trans (congrArg SearchStats.queries hstats)
  exact ⟨s, log, hmoves, hstate, hstats, hlog ▸ haccounted, hfinal (by simp [hstate])⟩

end Search

end InvariantSearch
