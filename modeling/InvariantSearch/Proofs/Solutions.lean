import InvariantSearch.Proofs.FiniteLanguages
import InvariantSearch.Proofs.Soundness

/-!
# The terms of solutions

A solution defines every function to synthesize, in the order of their declaration. What is found
for the constrained predicate is a term of its grammar. Every other predicate gets the first term of
its grammar, and the formula `true` if there is none (`Stated.solutions_derive`). So where a grammar
derives nothing the formula is no term of it (`solutions_emptyGrammar`).
-/

namespace InvariantSearch

open Grammar

variable {σ : Type}

namespace Grammar

variable {g : Grammar} {ticks : Nat} {t : Term}

/-- The sizes of derivations are bounded, but some of them do not fit into a 64-bit register. Then
the largest size is not added up correctly. -/
def Overflows (g : Grammar) : Prop :=
  g.Bounded start ∧ ∃ n, g.HasSize start n ∧ UInt64.size ≤ n

/-- Unless sizes overflow, an enumeration without a bound includes every term. -/
theorem includes_of_mem_language (hsizes : ¬g.Overflows) (ht : t ∈ g.language) :
    (Enumerator.new g none).Includes t := by
  obtain ⟨n, hd⟩ := ht
  obtain ⟨s, hle, hs⟩ := exists_minSize hd
  refine ⟨s, hs, fun limit hlimit => hle.trans ?_⟩
  have hmax : g.maxSize = some limit := by
    have hmerge : Option.merge min none g.maxSize = some limit := hlimit
    cases hmax : g.maxSize <;> simp_all
  have hbounded : g.Bounded start := isSome_maxSize_iff.1 (Option.isSome_iff_exists.2 ⟨_, hmax⟩)
  have hregister : ∀ m, g.HasSize start m → m < UInt64.size := fun m hm =>
    Nat.lt_of_not_le fun hlarge => hsizes ⟨hbounded, m, hm, hlarge⟩
  exact le_maxSize hregister hmax n ⟨t, hd⟩

/-- The first term of a grammar is one that it derives, or else `true` stands for it. Then the
grammar derives nothing, or its sizes overflow. -/
theorem firstTerm_eq_some (h : g.firstTerm ticks = some t) :
    t ∈ g.language ∨ t = .bool true ∧ (g.language = ∅ ∨ g.Overflows) := by
  obtain ⟨⟨o, e⟩, hnext, rfl⟩ := Option.map_eq_some_iff.1 h
  obtain ⟨hreached, hlimit, hend⟩ := (Enumerator.reached_new g none).next hnext
  cases o with
  | some u =>
    obtain ⟨s, hs, -⟩ := hreached.out_spec.2.1 u (by simp)
    exact .inl ⟨s, (isLeast_minSize.1 hs).1⟩
  | none =>
    refine .inr ⟨rfl, ?_⟩
    by_contra hne
    obtain ⟨hnonempty, hsizes⟩ := not_or.1 hne
    obtain ⟨u, hu⟩ := Set.nonempty_iff_ne_empty.2 hnonempty
    obtain ⟨s, hs, hincluded⟩ := Enumerator.includes_iff.1
      ((Enumerator.includes_congr hlimit).2 (includes_of_mem_language hsizes hu))
    simpa using (hreached.finished (hend rfl)).mem_out hs hincluded

end Grammar

namespace SynthProblem

variable {options : ProblemOptions} {given : Given} {p p' : SynthProblem} {names : ConstraintNames}
  {c : InvConstraint} {oracle : Oracle σ} {steps : Nat} {config : SearchConfig} {q q' : σ}
  {r : SynthResult}

/-- What a definition in a solution to the constraint `c` has to do with the function `f` to
synthesize. It has its name and parameters, and its body is derived by the function's grammar. Only
where the function is not constrained, and its grammar derives nothing or has sizes that overflow,
the body may be `true` instead. -/
structure Solves (p : SynthProblem) (c : InvConstraint) (f : SynthFun) (d : FunDef) : Prop where
  name : d.name = f.name
  params : d.params = f.params
  ret : d.ret = .bool
  body : d.body ∈ (f.grammarWith p.logic c.system.constants).language ∨
    f.name ≠ c.inv.name ∧ d.body = .bool true ∧
      ((f.grammarWith p.logic c.system.constants).language = ∅ ∨
        (f.grammarWith p.logic c.system.constants).Overflows)

/-- A complete solution has one definition for each function to synthesize, in order. -/
theorem Relates.forall₂_complete (hc : p.Relates names c) (h : p.Checked given) {ticks : Nat}
    {t : Term} (ht : t ∈ (c.inv.grammarWith p.logic c.system.constants).language)
    {defs : List FunDef} (hdefs : p.complete ticks c t = some defs) :
    List.Forall₂ (p.Solves c) p.synthFuns defs := by
  refine forall₂_of_mem (fun f hf d _ hd => ?_) (mapM_eq_some_iff.1 hdefs)
  by_cases hname : f.name = c.inv.name
  · rw [if_pos hname] at hd
    obtain rfl := Option.some.inj hd
    obtain rfl := List.inj_on_of_nodup_map h.nodup hf hc.inv hname
    exact ⟨rfl, rfl, rfl, .inl ht⟩
  · rw [if_neg hname] at hd
    obtain ⟨u, hu, rfl⟩ := Option.map_eq_some_iff.1 hd
    exact ⟨rfl, rfl, rfl, (firstTerm_eq_some hu).imp id fun hfallback => ⟨hname, hfallback⟩⟩

/-- When a problem that is stated has a solution, this has exactly one definition for each function
to synthesize, in the order of their declaration. -/
theorem Stated.solutions_derive (h : Stated options given p)
    (hsolve : p.solve oracle steps config q = .ok (some (r, p', q')))
    (hsolution : r.outcome = .hasSolution) :
    ∃ c defs, p.constraint = some c ∧ p'.solution = .ok defs ∧
      List.Forall₂ (p.Solves c) p.synthFuns defs := by
  have hchecked := h.checked
  obtain ⟨c, s, solutions, hc, hrun, hconclude, rfl⟩ := solve_eq_ok hsolve
  rw [hsolution] at hconclude
  obtain ⟨t, defs, hfound, hdefs, rfl⟩ := conclude_eq_hasSolution hconclude
  obtain ⟨names, -, hrelates⟩ := hchecked.constraint c hc
  obtain ⟨hderives, -⟩ := ((Search.Reachable.new q).run hrun).1.found hfound
  exact ⟨c, defs, hc, rfl, hrelates.forall₂_complete hchecked hderives hdefs⟩

/-! ## A grammar without terms -/

/-- A grammar that derives nothing, since its only rule never comes to an end. -/
def negations : Grammar := single [.unary .not (.id "B")]

theorem language_negations : negations.language = ∅ := by
  refine Set.eq_empty_of_forall_notMem fun t ⟨n, hn⟩ => ?_
  have hproductive : Known negations.productive start := productive_iff.2 ⟨n, _, hn⟩
  revert hproductive
  decide +kernel

/-- A predicate whose grammar derives nothing. -/
def emptyPredicate : SynthFun :=
  ⟨"f", [], some ⟨[], .lia, [(⟨"B", .bool⟩, [.term (.unary .not (.id "B"))])]⟩⟩

/-- The problem of the counter, with another predicate to synthesize. -/
def counterAndEmpty : SynthProblem :=
  { counter with synthFuns := [counterConstraint.inv, emptyPredicate] }

theorem stated_counterAndEmpty :
    Stated .default ⟨counterDefs, some ⟨"inv", "pre", "trans", "post"⟩⟩ counterAndEmpty :=
  stated_counter.declare (show declare counter "f" [] .bool
    (some [⟨"B", .bool, [.term (.unary .not (.id "B"))]⟩]) = .ok _ from rfl)

/-- The enumeration of the other predicate's grammar ends at once. -/
theorem complete_counterAndEmpty :
    counterAndEmpty.complete 2 counterConstraint (.bool true) =
      some [counterConstraint.inv.defineAs (.bool true), emptyPredicate.defineAs (.bool true)] := by
  have hexcluded : (Enumerator.new negations none).excludes 1 = true := by decide +kernel
  have htick := Enumerator.tick_of_excluded (e := Enumerator.new negations none) rfl rfl hexcluded
  have hfirst : negations.firstTerm 2 = some (.bool true) := by
    rw [firstTerm, Enumerator.next_of_end (by rw [htick]) (by rw [htick])]
    rfl
  show ([counterConstraint.inv, emptyPredicate].mapM fun f =>
    if f.name = counterConstraint.inv.name then some (f.defineAs (.bool true))
    else ((f.grammarWith .lia counterConstraint.system.constants).firstTerm 2).map f.defineAs) = _
  have hgrammar : emptyPredicate.grammarWith .lia counterConstraint.system.constants =
      negations := rfl
  rw [List.mapM_cons, List.mapM_cons, if_pos rfl, if_neg (by decide), hgrammar, hfirst]
  rfl

/-- Both predicates of the problem get a definition. -/
theorem solutions_derive_counterAndEmpty : ∃ r p',
    counterAndEmpty.solve .trivial 2 ⟨none, none, none, false⟩ () = .ok (some (r, p', ())) ∧
    r.outcome = .hasSolution ∧ ∃ defs, p'.solution = .ok defs ∧
      List.Forall₂ (counterAndEmpty.Solves counterConstraint)
        [counterConstraint.inv, emptyPredicate] defs := by
  obtain ⟨r, hsolve, hr⟩ := solve_of_counterConstraint rfl rfl complete_counterAndEmpty
  obtain ⟨c, defs, hc, hdefs, hsolves⟩ :=
    stated_counterAndEmpty.solutions_derive hsolve hr
  obtain rfl := Option.some.inj hc
  exact ⟨r, _, hsolve, hr, defs, hdefs, hsolves⟩

/-- A predicate that is not constrained may be defined by a formula that its grammar does not
derive. -/
theorem solutions_emptyGrammar :
    Stated .default ⟨counterDefs, some ⟨"inv", "pre", "trans", "post"⟩⟩ counterAndEmpty ∧
    ∃ r p' defs,
      counterAndEmpty.solve .trivial 2 ⟨none, none, none, false⟩ () = .ok (some (r, p', ())) ∧
      r.outcome = .hasSolution ∧ p'.solution = .ok defs ∧
      emptyPredicate.defineAs (.bool true) ∈ defs ∧
      (.bool true) ∉ (emptyPredicate.grammarWith counterAndEmpty.logic
        counterConstraint.system.constants).language := by
  obtain ⟨r, hsolve, hr⟩ := solve_of_counterConstraint rfl rfl complete_counterAndEmpty
  refine ⟨stated_counterAndEmpty, r, _, _, hsolve, hr, rfl, by simp, ?_⟩
  rw [show emptyPredicate.grammarWith counterAndEmpty.logic counterConstraint.system.constants =
    negations from rfl, language_negations]
  exact Set.notMem_empty _

end SynthProblem

end InvariantSearch
