import InvariantSearch.Proofs.Accounting
import InvariantSearch.Proofs.Windows
import Mathlib.Data.Set.Card

/-!
# Progress

Let every counterexample that an oracle gives make its condition false. A candidate that reaches the
oracle is admitted by the store, so that a counterexample to it differs from all that are stored.
`Search.Progressed` says this of a search and its log, and every step keeps it (`Progressed.step`).
A store only grows, and so it admits ever fewer candidates (`store_grows_of_moves`). With the
bounded oracle there are no more counterexamples than fit in the window. `store_progress` puts this
together.
-/

namespace InvariantSearch

open Oracle (byKind)

variable {σ : Type} {ts : TransitionSystem} {t : Term}

/-- A list without repetitions is no longer than a finite set is large that has its members. -/
theorem length_le_ncard_of_nodup {α : Type} [DecidableEq α] {l : List α} (h : l.Nodup) {s : Set α}
    (hs : s.Finite) (hsub : ∀ a ∈ l, a ∈ s) : l.length ≤ s.ncard := by
  calc l.length = l.toFinset.card := (List.toFinset_card_of_nodup h).symm
    _ = (l.toFinset : Set α).ncard := (Set.ncard_coe_finset _).symm
    _ ≤ s.ncard := Set.ncard_le_ncard (fun a ha => hsub a (by simpa using ha)) hs

/-- Every counterexample of the oracle makes the formula of the condition false. -/
def Oracle.Falsifies (oracle : Oracle σ) : Prop :=
  ∀ c a, oracle.Answers c (.invalid a) → c.formula.evalBool a.get? = .ok false

/-- The oracle decides as the bounded oracle does. -/
def Oracle.IsBounded (w : Nat) (oracle : Oracle σ) : Prop :=
  ∀ c d, oracle.Answers c d → BoundedOracle.decide w c = d

theorem Oracle.isBounded_bounded (w : Nat) : (Oracle.bounded w).IsBounded w := by
  intro c d h
  exact Oracle.answers_ofFunction.1 h

theorem Oracle.IsBounded.falsifies {oracle : Oracle σ} {w : Nat} (h : oracle.IsBounded w) :
    oracle.Falsifies := by
  intro c a hanswer
  exact (BoundedOracle.spec_of_invalid (h c _ hanswer)).2

theorem Oracle.IsBounded.logged {oracle : Oracle σ} {w : Nat} (h : oracle.IsBounded w) :
    oracle.logged.IsBounded w := by
  rintro c d ⟨⟨q, log⟩, hanswer⟩
  exact h c d ⟨q, hanswer⟩

/-- The variables of the conditions of a kind. -/
def TransitionSystem.conditionVars (ts : TransitionSystem) : ConditionKind → List Binder
  | .init | .safety => ts.vars
  | .step => ts.vars ++ ts.primedVars

theorem TransitionSystem.condition_vars_eq (ts : TransitionSystem) (kind : ConditionKind)
    (t : Term) : (ts.condition kind t).vars = ts.conditionVars kind := by
  cases kind <;> rfl

/-! ## Counterexamples told apart -/

namespace Counterexample

variable {x y : Counterexample}

/-- The counterexamples are of two kinds, or give some name two different values. -/
def Differ (x y : Counterexample) : Prop :=
  x.kind = y.kind → x.assignment.get? ≠ y.assignment.get?

theorem refutes_iff : x.refutes ts t = true ↔
    (ts.condition x.kind t).formula.evalBool x.assignment.get? = .ok false := by
  unfold refutes
  cases (ts.condition x.kind t).formula.evalBool x.assignment.get? with
  | ok holds => cases holds <;> simp
  | error e => simp

/-- Counterexamples that do not differ refute the same candidates. -/
theorem refutes_congr (hkind : x.kind = y.kind)
    (hassignment : x.assignment.get? = y.assignment.get?) :
    x.refutes ts t = true ↔ y.refutes ts t = true := by
  rw [refutes_iff, refutes_iff, hkind, hassignment]

/-- What refutes a candidate differs from everything that does not. -/
theorem differ_of_refutes (hx : ¬x.refutes ts t = true) (hy : y.refutes ts t = true) :
    x.Differ y :=
  fun hkind hassignment => hx ((refutes_congr hkind hassignment).2 hy)

end Counterexample

namespace Store

variable {store store' : Store}

theorem admits_iff : store.admits ts t = true ↔ ∀ cex ∈ store, ¬cex.refutes ts t = true := by
  rw [admits, Option.isNone_iff_eq_none, firstViolated, List.find?_eq_none]

theorem admits_eq_false_of_mem {cex : Counterexample} (hcex : cex ∈ store)
    (hrefutes : cex.refutes ts t = true) : store.admits ts t = false := by
  rw [← Bool.not_eq_true, admits_iff]
  exact fun hall => hall cex hcex hrefutes

/-- What a larger store admits, a smaller one does. -/
theorem admits_of_subset (h : store ⊆ store') (hadmits : store'.admits ts t = true) :
    store.admits ts t = true :=
  admits_iff.2 fun cex hcex => admits_iff.1 hadmits cex (h hcex)

end Store

namespace Search

variable {g : Grammar} {oracle : Oracle σ} {config : SearchConfig} {s s' : Search g} {q q' : σ}
  {ticks : Nat} {log log' : List (Condition × Decision)}

/-! ## One candidate -/

theorem conditions_nodup (ts : TransitionSystem) (t : Term) :
    ((ts.conditions t).map (·.kind)).Nodup := by
  simp [TransitionSystem.conditions]

/-- The counterexamples to one candidate are of different kinds. -/
theorem pairwise_differ {all : Bool} {answers : List (Condition × Decision)}
    (hasked : oracle.Asked all (ts.conditions t) q answers q') :
    (counterexamples (byKind answers)).Pairwise Counterexample.Differ := by
  have hkinds : ((byKind answers).map Prod.fst).Nodup := by
    have hbegins := (hasked.begins.map fun c : Condition => c.kind).sublist
    rw [List.map_map] at hbegins
    rw [byKind, List.map_map]
    exact (conditions_nodup ts t).sublist hbegins
  refine List.Pairwise.filterMap _ ?_ (List.pairwise_map.1 hkinds)
  rintro ⟨kind, d⟩ ⟨kind', d'⟩ hne x hx y hy
  cases d <;> cases hx
  cases d' <;> cases hy
  exact fun hkind => absurd hkind hne

/-- A counterexample among the answers refutes the candidate, if it makes its condition false. -/
theorem refutes_of_mem (horacle : oracle.Falsifies) {all : Bool}
    {answers : List (Condition × Decision)}
    (hasked : oracle.Asked all (ts.conditions t) q answers q') {cex : Counterexample}
    (hcex : cex ∈ counterexamples (byKind answers)) : cex.refutes ts t = true := by
  obtain ⟨⟨c, d⟩, hmem, heq⟩ := List.mem_map.1 (mem_counterexamples.1 hcex)
  obtain ⟨hkind, rfl⟩ := Prod.mk.inj heq
  obtain ⟨hc, hanswer⟩ := hasked.answers_of_mem hmem
  obtain ⟨kind, rfl⟩ := TransitionSystem.mem_conditions.1 hc
  obtain rfl : kind = cex.kind := (ts.condition_kind kind t).symm.trans hkind
  exact Counterexample.refutes_iff.2 (horacle _ _ hanswer)

/-! ## The store and the log -/

/-- A search whose stored counterexamples differ, and whose oracle gave the answers in the log. The
counterexamples in the log are stored, unless a condition was not decided. -/
structure Progressed (oracle : Oracle σ) (s : Search g) (log : List (Condition × Decision)) :
    Prop where
  differ : s.store.Pairwise Counterexample.Differ
  answered : ∀ c d, (c, d) ∈ log → oracle.Answers c d
  stored : (∀ kind reason, s.state ≠ .unknown kind reason) →
    ∀ c a, (c, .invalid a) ∈ log → ⟨c.kind, a⟩ ∈ s.store

theorem progressed_new (oracle : Oracle σ) (ts : TransitionSystem) (g : Grammar)
    (config : SearchConfig) : (new ts g config).Progressed oracle [] where
  differ := .nil
  answered _ _ h := absurd h List.not_mem_nil
  stored _ _ _ h := absurd h List.not_mem_nil

/-- The answers about an admitted candidate go to the log, and the counterexamples among them to the
store. -/
theorem Progressed.decided (h : s.Progressed oracle log) (horacle : oracle.Falsifies)
    (hs : s.state = .searching) (hadmitted : s.store.firstViolated s.system t = none)
    (e : Enumerator g) (stats : SearchStats) {answers : List (Condition × Decision)}
    (hasked : oracle.Asked s.config.parallel (s.system.conditions t) q answers q') :
    Progressed oracle ({ s with enumerator := e, stats }.conclude t (byKind answers))
      (answers.reverse ++ log) := by
  have hanswered : ∀ c d, (c, d) ∈ answers.reverse ++ log → oracle.Answers c d := by
    intro c d hmem
    rcases List.mem_append.1 hmem with hmem | hmem
    · exact (hasked.answers_of_mem (List.mem_reverse.1 hmem)).2
    · exact h.answered c d hmem
  cases hunknown : firstUnknown (byKind answers) with
  | some p =>
    rw [conclude_of_unknown _ t hunknown]
    exact ⟨h.differ, hanswered, fun hstate => absurd rfl (hstate p.1 p.2)⟩
  | none =>
    rw [conclude_of_decided _ t hunknown]
    refine ⟨?_, hanswered, fun _ c a hmem => ?_⟩
    · refine List.pairwise_append.2 ⟨h.differ, pairwise_differ hasked, fun x hx y hy => ?_⟩
      -- the store admits the candidate, and so none of its entries does what the new ones do
      have hx : ¬x.refutes s.system t = true := List.find?_eq_none.1 hadmitted x hx
      exact Counterexample.differ_of_refutes hx (refutes_of_mem horacle hasked hy)
    · rcases List.mem_append.1 hmem with hmem | hmem
      · refine List.mem_append_right _ (mem_counterexamples.2 ?_)
        exact List.mem_map.2 ⟨_, List.mem_reverse.1 hmem, rfl⟩
      · exact List.mem_append_left _ (h.stored (by simp [hs]) c a hmem)

theorem Progressed.step (h : s.Progressed oracle log) (horacle : oracle.Falsifies)
    (hstep : s.step oracle.logged ticks (q, log) = some (s', q', log')) :
    s'.Progressed oracle log' := by
  generalize hq : (q, log) = x at hstep
  generalize hq' : (q', log') = x' at hstep
  cases stepped_of_step hstep with
  | final =>
    obtain ⟨rfl, rfl⟩ := Prod.mk.inj (hq.trans hq'.symm)
    exact h
  | gaveUp hs | ended hs | refuted hs =>
    obtain ⟨rfl, rfl⟩ := Prod.mk.inj (hq.trans hq'.symm)
    exact ⟨h.differ, h.answered, fun _ => h.stored (by simp [hs])⟩
  | decided hs _ _ hadmitted hasked =>
    subst hq hq'
    obtain ⟨hasked', rfl⟩ := hasked.of_logged
    exact h.decided horacle hs hadmitted _ _ hasked'

theorem progressed_of_moves (horacle : oracle.Falsifies)
    {x : Search g × σ × List (Condition × Decision)}
    (h : Relation.ReflTransGen (Moves oracle.logged) (new ts g config, q, []) x) :
    x.1.Progressed oracle x.2.2 := by
  induction h with
  | refl => exact progressed_new oracle ts g config
  | tail _ hmove ih =>
    cases hmove with
    | wait => exact { ih with }
    | step hstep => exact ih.step horacle hstep

/-! ## Ever more counterexamples -/

/-- A step forgets no counterexample. -/
theorem store_grows_of_step (hstep : s.step oracle ticks q = some (s', q')) :
    s.store ⊆ s'.store := by
  cases stepped_of_step hstep with
  | final | gaveUp | ended | refuted => exact List.Subset.refl _
  | @decided _ _ _ t _ _ answers _ =>
    cases hunknown : firstUnknown (byKind answers) with
    | some p =>
      rw [conclude_of_unknown _ t hunknown]
      exact List.Subset.refl _
    | none =>
      rw [conclude_of_decided _ t hunknown]
      exact List.subset_append_left _ _

theorem store_grows_of_moves {x : Search g × σ}
    (h : Relation.ReflTransGen (Moves oracle) (s, q) x) : s.store ⊆ x.1.store := by
  induction h with
  | refl => exact List.Subset.refl _
  | tail _ hmove ih =>
    cases hmove with
    | wait => exact ih
    | step hstep => exact List.Subset.trans ih (store_grows_of_step hstep)

/-! ## No more than fit in the window -/

/-- The counterexamples of any kind that assign values in the window to the variables of the
conditions of that kind. -/
def windowCounterexamples (w : Nat) (ts : TransitionSystem) : Set Counterexample :=
  {cex | cex.assignment.InWindow w (ts.conditionVars cex.kind)}

theorem finite_windowCounterexamples (w : Nat) (ts : TransitionSystem) :
    (windowCounterexamples w ts).Finite := by
  have hkinds (kind : ConditionKind) :
      (Counterexample.mk kind '' {a | a.InWindow w (ts.conditionVars kind)}).Finite :=
    (Assignment.finite_inWindow w _).image _
  refine (((hkinds .init).union (hkinds .step)).union (hkinds .safety)).subset ?_
  rintro ⟨kind, a⟩ ha
  cases kind with
  | init => exact .inl (.inl ⟨a, ha, rfl⟩)
  | step => exact .inl (.inr ⟨a, ha, rfl⟩)
  | safety => exact .inr ⟨a, ha, rfl⟩

/-- What a search stores are counterexamples that its oracle gave; those of the bounded oracle lie
in the window. -/
theorem Explored.mem_window {drawn : List Term} (h : s.Explored oracle drawn) {w : Nat}
    (hw : oracle.IsBounded w) {cex : Counterexample} (hcex : cex ∈ s.store) :
    cex ∈ windowCounterexamples w s.system := by
  obtain ⟨t, ht⟩ := h.stored cex hcex
  have hwindow := (BoundedOracle.spec_of_invalid (hw _ _ ht)).1
  rwa [TransitionSystem.condition_vars_eq] at hwindow

theorem length_le_ncard {store : Store} (hdiffer : store.Pairwise Counterexample.Differ)
    {cexs : Set Counterexample} (hfinite : cexs.Finite) (hstore : ∀ cex ∈ store, cex ∈ cexs) :
    store.length ≤ cexs.ncard := by
  have hnodup : store.Nodup := hdiffer.imp fun {x y} hxy heq =>
    hxy (congrArg Counterexample.kind heq) (congrArg (·.assignment.get?) heq)
  exact length_le_ncard_of_nodup hnodup hfinite hstore

/-- Let every counterexample of an oracle make its condition false. Wherever a search gets to by
steps, any two stored counterexamples differ in their kinds or in what they assign. From there on
the store admits no candidate that it did not admit before; and it admits none that the oracle has
refuted by then, unless the search has ended for a condition that was not decided. If the oracle
decides as the bounded oracle does, then no more counterexamples are recorded than there are
assignments in the window for the conditions of each kind. -/
theorem store_progress (ts : TransitionSystem) (g : Grammar) (config : SearchConfig)
    {oracle : Oracle σ} (horacle : oracle.Falsifies) {s : Search g} {q q' : σ}
    {log : List (Condition × Decision)}
    (h : Relation.ReflTransGen (Moves oracle.logged) (new ts g config, q, []) (s, q', log)) :
    s.store.Pairwise (fun x y => x.kind = y.kind → x.assignment.get? ≠ y.assignment.get?) ∧
    (∀ s₁ q₁ log₁, Relation.ReflTransGen (Moves oracle.logged) (s, q', log) (s₁, q₁, log₁) →
      (∀ t, s₁.store.admits ts t = true → s.store.admits ts t = true) ∧
      ((∀ kind reason, s.state ≠ .unknown kind reason) →
        ∀ kind t a, (ts.condition kind t, .invalid a) ∈ log → s₁.store.admits ts t = false)) ∧
    ∀ w, oracle.IsBounded w → (windowCounterexamples w ts).Finite ∧
      s.stats.counterexamples ≤ (windowCounterexamples w ts).ncard := by
  have hprogressed := progressed_of_moves horacle h
  refine ⟨hprogressed.differ, fun s₁ q₁ log₁ hmoves => ?_, fun w hw => ?_⟩
  · have hgrows := store_grows_of_moves hmoves
    refine ⟨fun t => Store.admits_of_subset hgrows, fun hstate kind t a hmem => ?_⟩
    have hstored := hgrows (hprogressed.stored hstate _ a hmem)
    rw [TransitionSystem.condition_kind] at hstored
    refine Store.admits_eq_false_of_mem hstored (Counterexample.refutes_iff.2 ?_)
    exact horacle _ a (hprogressed.answered _ _ hmem)
  · have hfinite := finite_windowCounterexamples w ts
    refine ⟨hfinite, ?_⟩
    obtain ⟨drawn, hexplored, rfl, -⟩ := (reachable_of_moves h).explored
    rw [← (accounted_of_moves h).stored]
    exact length_le_ncard hprogressed.differ hfinite fun cex => hexplored.mem_window hw.logged

/-- In a free bit the bounded oracle refutes the candidate `b` twice at once. The two
counterexamples differ, the store no longer admits `b`, and the window has room for both. -/
theorem store_progress_freeBit : ∃ s log,
    Relation.ReflTransGen (Moves (Oracle.bounded 0).logged)
      (new freeBit (single [.id "b"]) ⟨none, none, none, true⟩, (), []) (s, (), log) ∧
    s.state = .searching ∧ s.stats.counterexamples = 2 ∧
    s.store.Pairwise (fun x y => x.kind = y.kind → x.assignment.get? ≠ y.assignment.get?) ∧
    s.store.admits freeBit (.id "b") = false ∧ 2 ≤ (windowCounterexamples 0 freeBit).ncard := by
  have hlimit : (Enumerator.new (single [.id "b"]) none).limit = some 1 := by decide +kernel
  have hfirst := Enumerator.next_new (g := single [.id "b"]) none
    (r := ⟨.id "b", [], 1⟩) rfl rfl rfl (by rw [Enumerator.excludes, hlimit]; rfl) 1
  obtain ⟨s, log, hstep, hstate, hcount, hlog⟩ : ∃ s log,
      (new freeBit (single [.id "b"]) ⟨none, none, none, true⟩).step (Oracle.bounded 0).logged 2
        ((), []) = some (s, (), log) ∧
      s.state = .searching ∧ s.stats.counterexamples = 2 ∧
      (freeBit.condition .init (.id "b"), .invalid (.ofList [("b", .bool false)])) ∈ log :=
    ⟨_, _, step_of_next rfl rfl _ hfirst _, by decide +kernel, by decide +kernel,
      by decide +kernel⟩
  have hmoves := Relation.ReflTransGen.single (Moves.step hstep)
  obtain ⟨hdiffer, hadmits, hbound⟩ := store_progress freeBit (single [.id "b"]) _
    (Oracle.isBounded_bounded 0).falsifies hmoves
  obtain ⟨-, hrefuted⟩ := hadmits s () log .refl
  refine ⟨s, log, hmoves, hstate, hcount, hdiffer, ?_, ?_⟩
  · exact hrefuted (by simp [hstate]) _ _ _ hlog
  · exact hcount ▸ (hbound 0 (Oracle.isBounded_bounded 0)).2

end Search

end InvariantSearch
