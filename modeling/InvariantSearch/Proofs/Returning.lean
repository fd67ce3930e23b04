import InvariantSearch.Proofs.Requests
import InvariantSearch.Proofs.Solutions

/-!
# Requests that return

Searches and enumerations are given a number of steps and ticks, since they may go on forever. If
they end, more steps and ticks do not change what they come to (`Search.run_mono`,
`SynthProblem.conclude_mono`). The first term of a grammar is always found (`exists_firstTerm`), so
every search that ends can be concluded (`exists_conclude`). A request to solve a problem returns
if it ends within some number of steps (`SynthProblem.Returns`). Where there is a constraint it does
if and only if the search for the constrained predicate ends (`Stated.exists_returns_iff`).
-/

namespace InvariantSearch

variable {σ : Type}

/-! ## More steps -/

namespace Search

variable {g : Grammar} {oracle : Oracle σ} {s : Search g} {q : σ} {r : Search g × σ}

theorem step_mono {ticks ticks' : Nat} (hle : ticks ≤ ticks') (h : s.step oracle ticks q = some r) :
    s.step oracle ticks' q = some r := by
  by_cases hs : s.state = .searching
  · cases hbudget : s.outOfBudget with
    | true =>
      rw [step_of_outOfBudget hs hbudget] at h ⊢
      exact h
    | false =>
      rcases next_of_step hs hbudget h with ⟨e, hnext, rfl⟩ | ⟨t, e, hnext, rfl⟩
      · exact step_of_end hs hbudget oracle (Enumerator.next_mono hle hnext) q
      · exact step_of_next hs hbudget oracle (Enumerator.next_mono hle hnext) q
  · rw [step_of_final hs] at h ⊢
    exact h

theorem run_mono {steps steps' : Nat} (hle : steps ≤ steps') (h : s.run oracle steps q = some r) :
    s.run oracle steps' q = some r := by
  induction steps generalizing s q steps' with
  | zero => simp [Search.run] at h
  | succ steps ih =>
    obtain ⟨steps', rfl⟩ : ∃ n, steps' = n + 1 := ⟨steps' - 1, by omega⟩
    by_cases hs : s.state = .searching
    · rw [Search.run, if_neg (not_not.2 hs)] at h ⊢
      obtain ⟨⟨s₁, q₁⟩, hstep, hrun⟩ := Option.bind_eq_some_iff.1 h
      have hle' : steps ≤ steps' := by omega
      exact Option.bind_eq_some_iff.2 ⟨(s₁, q₁), step_mono hle' hstep, ih hle' hrun⟩
    · rw [run_of_final hs] at h ⊢
      exact h

end Search

namespace Grammar

variable {g : Grammar} {t : Term}

theorem firstTerm_mono {ticks ticks' : Nat} (hle : ticks ≤ ticks')
    (h : g.firstTerm ticks = some t) : g.firstTerm ticks' = some t := by
  obtain ⟨r, hnext, rfl⟩ := Option.map_eq_some_iff.1 h
  exact Option.map_eq_some_iff.2 ⟨r, Enumerator.next_mono hle hnext, rfl⟩

/-- The first term of every grammar is found. Either the enumeration ends, or the grammar derives
some term, and this is returned unless another is before. -/
theorem exists_firstTerm (g : Grammar) : ∃ ticks t, g.firstTerm ticks = some t := by
  obtain ⟨ticks, n, ts, e, htake, hn⟩ :
      ∃ ticks n ts e, (Enumerator.new g none).take ticks n = some (ts, e) ∧ n ≠ 0 := by
    by_cases hbounded : g.Bounded start
    · obtain ⟨ticks, n, ts, e, htake, hlt⟩ := ends_iff.2 (isSome_maxSize_iff.2 hbounded)
      exact ⟨ticks, n, ts, e, htake, by omega⟩
    · obtain ⟨n, t, hd⟩ : ∃ n, g.HasSize start n := by
        by_contra hnone
        exact hbounded ⟨0, fun n hn => absurd ⟨n, hn⟩ hnone⟩
      obtain ⟨ticks, n, ts, e, htake, hmem⟩ := Enumerator.exists_take_mem g none
        (includes_of_mem_language (fun h => hbounded h.1) ⟨n, hd⟩)
      refine ⟨ticks, n, ts, e, htake, ?_⟩
      rintro rfl
      obtain ⟨rfl, -⟩ := Prod.mk.inj (Option.some.inj htake)
      simp at hmem
  obtain ⟨n, rfl⟩ := Nat.exists_eq_add_one_of_ne_zero hn
  obtain ⟨r, hnext, -⟩ := Option.bind_eq_some_iff.1 htake
  exact ⟨ticks, _, Option.map_eq_some_iff.2 ⟨r, hnext, rfl⟩⟩

end Grammar

/-! ## Conclusions from a search -/

namespace SynthProblem

variable {p p' : SynthProblem} {c : InvConstraint} {t : Term}

/-- The definition of one of the functions to synthesize, once the constrained one is found. -/
def completion (ticks : Nat) (p : SynthProblem) (c : InvConstraint) (invariant : Term)
    (f : SynthFun) : Option FunDef :=
  if f.name = c.inv.name then some (f.defineAs invariant)
  else ((f.grammarWith p.logic c.system.constants).firstTerm ticks).map f.defineAs

theorem complete_eq_some_iff {ticks : Nat} {defs : List FunDef} :
    p.complete ticks c t = some defs ↔
      List.Forall₂ (fun f d => p.completion ticks c t f = some d) p.synthFuns defs :=
  mapM_eq_some_iff

theorem completion_name {ticks : Nat} {f : SynthFun} {d : FunDef}
    (h : p.completion ticks c t f = some d) : d.name = f.name := by
  unfold completion at h
  split at h
  next =>
    obtain rfl := Option.some.inj h
    rfl
  next =>
    obtain ⟨u, -, rfl⟩ := Option.map_eq_some_iff.1 h
    rfl

theorem completion_mono {ticks ticks' : Nat} (hle : ticks ≤ ticks') {f : SynthFun} {d : FunDef}
    (h : p.completion ticks c t f = some d) : p.completion ticks' c t f = some d := by
  unfold completion at h ⊢
  split at h
  next hname => rwa [if_pos hname]
  next hname =>
    obtain ⟨u, hu, rfl⟩ := Option.map_eq_some_iff.1 h
    rw [if_neg hname]
    exact Option.map_eq_some_iff.2 ⟨u, Grammar.firstTerm_mono hle hu, rfl⟩

theorem exists_completion (p : SynthProblem) (c : InvConstraint) (t : Term) (f : SynthFun) :
    ∃ ticks d, p.completion ticks c t f = some d := by
  unfold completion
  split
  next => exact ⟨0, _, rfl⟩
  next =>
    obtain ⟨ticks, u, hu⟩ := (f.grammarWith p.logic c.system.constants).exists_firstTerm
    exact ⟨ticks, _, Option.map_eq_some_iff.2 ⟨u, hu, rfl⟩⟩

theorem complete_mono {ticks ticks' : Nat} (hle : ticks ≤ ticks') {defs : List FunDef}
    (h : p.complete ticks c t = some defs) : p.complete ticks' c t = some defs :=
  complete_eq_some_iff.2 ((complete_eq_some_iff.1 h).imp fun _ _ => completion_mono hle)

/-- All functions to synthesize are defined after some number of ticks. -/
theorem exists_complete (p : SynthProblem) (c : InvConstraint) (t : Term) :
    ∃ ticks defs, p.complete ticks c t = some defs := by
  choose ticks d hd using p.exists_completion c t
  refine ⟨(p.synthFuns.map ticks).sum, p.synthFuns.map d, complete_eq_some_iff.2 ?_⟩
  rw [List.forall₂_map_right_iff, List.forall₂_same]
  intro f hf
  exact completion_mono (List.le_sum_of_mem (List.mem_map_of_mem hf)) (hd f)

/-- A solution defines every function to synthesize by its completion. -/
theorem findDef?_complete (nodup : (p.synthFuns.map (·.name)).Nodup) {ticks : Nat}
    {defs : List FunDef} (h : p.complete ticks c t = some defs) {f : SynthFun}
    (hf : f ∈ p.synthFuns) : findDef? defs f.name = p.completion ticks c t f := by
  have hall := complete_eq_some_iff.1 h
  have hnames : defs.map (·.name) = p.synthFuns.map (·.name) := by
    rw [← List.forall₂_eq_eq_eq, List.forall₂_map_left_iff, List.forall₂_map_right_iff]
    exact hall.flip.imp fun _ _ => completion_name
  obtain ⟨d, hd, heq⟩ := exists_mem_of_forall₂ hall hf
  rw [heq, ← completion_name heq]
  exact findDef?_of_mem (hnames ▸ nodup) hd

theorem conclude_mono {ticks ticks' : Nat} (hle : ticks ≤ ticks') {state : SearchState}
    {r : SynthOutcome × Option (List FunDef)} (h : p.conclude ticks c state = some r) :
    p.conclude ticks' c state = some r := by
  cases state with
  | found t =>
    obtain ⟨defs, hdefs, rfl⟩ := Option.map_eq_some_iff.1 h
    exact Option.map_eq_some_iff.2 ⟨defs, complete_mono hle hdefs, rfl⟩
  | searching | exhausted | unknown | timeout => exact h

/-- Every search that has ended can be concluded. -/
theorem exists_conclude (p : SynthProblem) (c : InvConstraint) {state : SearchState}
    (hstate : state ≠ .searching) : ∃ ticks r, p.conclude ticks c state = some r := by
  cases state with
  | searching => exact absurd rfl hstate
  | found t =>
    obtain ⟨ticks, defs, hdefs⟩ := p.exists_complete c t
    exact ⟨ticks, _, Option.map_eq_some_iff.2 ⟨defs, hdefs, rfl⟩⟩
  | exhausted | unknown | timeout => exact ⟨0, _, rfl⟩

/-! ## Requests to solve a problem -/

variable {decide : Condition → Decision} {config : SearchConfig}
  {result : Except SynthesisError SynthResult}

/-- A request to solve the problem ends within some number of steps, with this result and this
problem afterwards. The oracle is a function of the condition. -/
def Returns (p : SynthProblem) (decide : Condition → Decision) (config : SearchConfig)
    (result : Except SynthesisError SynthResult) (p' : SynthProblem) : Prop :=
  ∃ steps, ((RequestM.solve (.ofFunction decide) steps config ()).runOn p).map
    (fun ended => (ended.1.map Prod.fst, ended.2)) = some (result, p')

section Stated

variable {options : ProblemOptions} {given : Given} (h : Stated options given p)

include h

theorem Stated.returns_iff (hc : p.constraint = some c) :
    p.Returns decide config result p' ↔ ∃ steps s outcome solutions,
      (Search.new c.system (c.inv.grammarWith p.logic c.system.constants) config).run
        (.ofFunction decide) steps () = some (s, ()) ∧
      p.conclude steps c s.state = some (outcome, solutions) ∧
      result = .ok ⟨outcome, s.stats⟩ ∧ p' = { p with solutions } := by
  have hsolve (steps : Nat) : p.solve (.ofFunction decide) steps config () =
      .ok (p.solveConstraint (.ofFunction decide) steps config c ()) := by
    rw [SynthProblem.solve, hc]
  unfold Returns
  refine exists_congr fun steps => ?_
  rw [h.runOn_solve, hsolve]
  simp only [solveConstraint, Option.map_map, Option.map_eq_some_iff, Option.bind_eq_bind,
    Option.bind_eq_some_iff]
  constructor
  · rintro ⟨_, ⟨⟨s, _⟩, hrun, ⟨outcome, solutions⟩, hconclude, hended⟩, heq⟩
    obtain rfl := Option.some.inj hended
    obtain ⟨rfl, rfl⟩ := Prod.mk.inj heq
    exact ⟨s, outcome, solutions, hrun, hconclude, rfl, rfl⟩
  · rintro ⟨s, outcome, solutions, hrun, hconclude, rfl, rfl⟩
    exact ⟨_, ⟨(s, ()), hrun, (outcome, solutions), hconclude, rfl⟩, rfl⟩

/-- A request to solve the problem returns if the search ends. -/
theorem Stated.exists_returns_iff (hc : p.constraint = some c) :
    (∃ result p', p.Returns decide config result p') ↔ ∃ steps x,
      (Search.new c.system (c.inv.grammarWith p.logic c.system.constants) config).run
        (.ofFunction decide) steps () = some x := by
  constructor
  · rintro ⟨result, p', hreturns⟩
    obtain ⟨steps, s, -, -, hrun, -⟩ := (h.returns_iff hc).1 hreturns
    exact ⟨steps, (s, ()), hrun⟩
  · rintro ⟨steps, ⟨s, _⟩, hrun⟩
    have hfinal := ((Search.Reachable.new ()).run hrun).2
    obtain ⟨ticks, ⟨outcome, solutions⟩, hconclude⟩ := p.exists_conclude c hfinal
    exact ⟨_, _, (h.returns_iff hc).2 ⟨max steps ticks, s, outcome, solutions,
      Search.run_mono (le_max_left _ _) hrun, conclude_mono (le_max_right _ _) hconclude, rfl, rfl⟩⟩

/-- Without a constraint a request to solve the problem is refused. -/
theorem Stated.returns_iff_of_unconstrained (hc : p.constraint = none) :
    p.Returns decide config result p' ↔ result = .error .noConstraint ∧ p' = p := by
  unfold Returns
  simp only [h.runOn_solve, SynthProblem.solve, hc]
  simp [Except.map, eq_comm]

end Stated

end SynthProblem

end InvariantSearch
