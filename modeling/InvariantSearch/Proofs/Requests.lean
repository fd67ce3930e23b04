import InvariantSearch.Proofs.Soundness
import InvariantSearch.Synthesis.Request

/-!
# Requests that are refused

Requests act on a problem step by step. Each comes to what the function on problems of its name
says, and a request that is refused leaves the problem as it was (`Stated.runOn`). For the first
three this is because all checks come first. A request to solve forgets the solutions before it
checks anything; but it is refused only where there is no constraint, and then there are no
solutions either. So the problems that are reached by any requests are those that are stated by the
ones that were not refused (`Reached.stated`, `Stated.reached`).
-/

namespace InvariantSearch

variable {α β σ : Type}

/-! ## The steps of a request -/

namespace RequestM

variable {p p' : SynthProblem} {r : RequestM α} {f : α → RequestM β}

@[simp]
theorem runOn_modify (change : SynthProblem → SynthProblem) :
    (modify change : RequestM Unit).runOn p = some (.ok (), change p) := rfl

theorem runOn_bind : (r >>= f).runOn p = (r.runOn p).bind fun
    | (.ok a, p') => (f a).runOn p'
    | (.error e, p') => some (.error e, p') := by
  show (r.runOn p).bind _ = _
  refine Option.bind_congr fun x _ => ?_
  obtain ⟨a | e, p'⟩ := x <;> rfl

theorem runOn_bind_of_ok {a : α} (h : r.runOn p = some (.ok a, p')) :
    (r >>= f).runOn p = (f a).runOn p' := by
  rw [runOn_bind, h]
  rfl

@[simp]
theorem runOn_get_bind (f : SynthProblem → RequestM β) : (get >>= f).runOn p = (f p).runOn p :=
  runOn_bind_of_ok (r := get) rfl

@[simp]
theorem runOn_ofExcept_bind (x : Except SynthesisError α) :
    (ofExcept x >>= f).runOn p = match x with
      | .ok a => (f a).runOn p
      | .error e => some (.error e, p) := by
  cases x <;> rfl

@[simp]
theorem runOn_liftM_bind (o : Option α) :
    runOn p ((liftM o : RequestM α) >>= f) = o.bind fun a => (f a).runOn p := by
  cases o <;> rfl

end RequestM

namespace SynthProblem

open RequestM

variable {p p' : SynthProblem}

/-- What comes of a request to which all checks come first: it is refused and changes nothing, or it
makes its change. -/
def settle (p : SynthProblem) :
    Except SynthesisError SynthProblem → Except SynthesisError Unit × SynthProblem
  | .ok p' => (.ok (), p')
  | .error e => (.error e, p)

/-- A check first, and then the rest. -/
theorem runOn_check {f : α → RequestM Unit} {g : α → Except SynthesisError SynthProblem}
    (x : Except SynthesisError α) (h : ∀ a, (f a).runOn p = some (p.settle (g a))) :
    (ofExcept x >>= f).runOn p = some (p.settle (x >>= g)) := by
  rw [runOn_ofExcept_bind]
  cases x with
  | ok a => exact h a
  | error e => rfl

theorem runOn_define (p : SynthProblem) (d : FunDef) :
    (RequestM.define d).runOn p = some (p.settle (p.define d)) := by
  rw [RequestM.define, runOn_get_bind]
  refine runOn_check _ fun _ => ?_
  refine runOn_check _ fun _ => ?_
  refine runOn_check _ fun _ => ?_
  exact runOn_check _ fun _ => rfl

theorem runOn_declare (p : SynthProblem) (name : String) (params : List Binder) (ret : Ty)
    (grammar : Option GrammarSyntax) :
    (RequestM.declare name params ret grammar).runOn p =
      some (p.settle (p.declare name params ret grammar)) := by
  rw [RequestM.declare, runOn_get_bind]
  refine runOn_check _ fun grammar => ?_
  refine runOn_check _ fun _ => ?_
  by_cases hret : ret = .bool
  · simp only [hret, ne_eq, not_true_eq_false, if_false]
    exact runOn_check _ fun _ => rfl
  · simp only [ne_eq, hret, not_false_eq_true, if_true]
    rfl

theorem runOn_constrain (p : SynthProblem) (inv pre trans post : String) :
    (RequestM.constrain inv pre trans post).runOn p =
      some (p.settle (p.constrain inv pre trans post)) := by
  rw [RequestM.constrain, runOn_get_bind, SynthProblem.constrain]
  cases p.constraint with
  | some c => rfl
  | none =>
    cases p.synthFun? inv with
    | none => rfl
    | some f =>
      dsimp only
      cases primedClash? f.params with
      | some x => rfl
      | none =>
        refine runOn_check _ fun _ => ?_
        refine runOn_check _ fun _ => ?_
        exact runOn_check _ fun _ => rfl

/-! ## Solving -/

/-- What a problem is prepared with before it is solved. The grammars can be built, with any
constants, and there are no solutions without a constraint. -/
structure Prepared (p : SynthProblem) : Prop where
  grammars : ∀ f ∈ p.synthFuns, ∀ constants,
    f.buildGrammar p.logic constants = .ok (f.grammarWith p.logic constants)
  unsolved : p.constraint = none → p.solutions = none

/-- A grammar that was checked can be built with any constants. -/
theorem buildGrammar_of_checkGrammar {name : String} {params : List Binder}
    {grammar : Option GrammarSyntax} {b? : Option GrammarBuilder}
    (h : grammar.mapM (p.checkGrammar params) = .ok b?) (logic : Logic) (constants : List Int64) :
    SynthFun.buildGrammar logic constants ⟨name, params, b?⟩ =
      .ok (SynthFun.grammarWith logic constants ⟨name, params, b?⟩) := by
  cases b? with
  | none => rfl
  | some b =>
    cases grammar with
    | none => cases h
    | some grammar =>
      obtain ⟨b', hb, hsome⟩ := bind_eq_ok_iff.1 h
      obtain rfl := Option.some.inj (Except.ok.inj hsome)
      obtain ⟨b'', -, hbuild⟩ := bind_eq_ok_iff.1 hb
      obtain ⟨g, hg, hb''⟩ := bind_eq_ok_iff.1 hbuild
      obtain rfl := Except.ok.inj hb''
      unfold GrammarBuilder.build at hg
      split at hg
      next => cases hg
      next hentries =>
        show ((b''.build constants).mapError _) = _
        rw [GrammarBuilder.build, if_neg hentries]
        rfl

/-- Problems that are stated are prepared. -/
theorem Stated.prepared {options : ProblemOptions} {given : Given} (h : Stated options given p) :
    p.Prepared := by
  induction h with
  | new h =>
    obtain rfl := new_eq_ok h
    exact ⟨by simp, fun _ => rfl⟩
  | define _ hd ih =>
    obtain ⟨-, -, -, -, rfl⟩ := define_eq_ok hd
    exact ⟨ih.grammars, ih.unsolved⟩
  | declare _ hd ih =>
    obtain ⟨b?, hgrammar, -, -, -, rfl⟩ := declare_eq_ok hd
    refine ⟨fun f hf => ?_, ih.unsolved⟩
    rcases List.mem_append.1 hf with hf | hf
    · exact ih.grammars f hf
    · obtain rfl := List.mem_singleton.1 hf
      exact buildGrammar_of_checkGrammar hgrammar _
  | constrain _ hc ih =>
    obtain ⟨f, dpre, dtrans, dpost, -, -, -, -, -, rfl⟩ := constrain_eq_ok hc
    exact ⟨ih.grammars, nofun⟩
  | solve _ hs ih =>
    obtain ⟨c, s, solutions, hc, -, -, rfl⟩ := solve_eq_ok hs
    refine ⟨ih.grammars, fun hnone => ?_⟩
    cases hc.symm.trans hnone

/-- Actions in order that change nothing and are not refused. -/
theorem runOn_mapM {f : α → RequestM β} {g : α → Option β} {as : List α}
    (h : ∀ a ∈ as, (f a).runOn p = (g a).map fun b => (.ok b, p)) :
    (as.mapM f).runOn p = (as.mapM g).map fun bs => (.ok bs, p) := by
  induction as with
  | nil => rfl
  | cons a as ih =>
    have ih := ih fun a ha => h a (List.mem_cons_of_mem _ ha)
    rw [List.mapM_cons, List.mapM_cons, runOn_bind, h a List.mem_cons_self]
    cases g a with
    | none => rfl
    | some b =>
      show ((as.mapM f >>= fun bs => pure (b :: bs) : RequestM _).runOn p) =
        ((as.mapM g).bind fun bs => some (b :: bs)).map _
      rw [runOn_bind, ih]
      cases as.mapM g <;> rfl

/-- The solutions are completed without a problem. -/
theorem Prepared.runOn_complete (h : p.Prepared) (ticks : Nat) (c : InvConstraint)
    (invariant : Term) :
    (RequestM.complete ticks c invariant).runOn p =
      (p.complete ticks c invariant).map fun defs => (.ok defs, p) := by
  rw [RequestM.complete, runOn_get_bind]
  refine runOn_mapM fun f hf => ?_
  split
  next => rfl
  next =>
    rw [h.grammars f hf]
    show runOn p (liftM _ >>= _) = _
    rw [runOn_liftM_bind]
    cases Grammar.firstTerm ticks _ <;> rfl

/-- What a search says is taken up without a problem. -/
theorem Prepared.runOn_conclude (h : p.Prepared) (ticks : Nat) (c : InvConstraint)
    (state : SearchState) :
    (RequestM.conclude ticks c state).runOn { p with solutions := none } =
      (p.conclude ticks c state).map fun (outcome, solutions) =>
        (.ok outcome, { p with solutions }) := by
  cases state with
  | found invariant =>
    have hcomplete := Prepared.runOn_complete (p := { p with solutions := none })
      ⟨h.grammars, fun _ => rfl⟩ ticks c invariant
    have hsame : complete ticks { p with solutions := none } c invariant =
      p.complete ticks c invariant := rfl
    rw [RequestM.conclude, runOn_bind, hcomplete, hsame, conclude]
    cases p.complete ticks c invariant <;> rfl
  | searching | exhausted | unknown | timeout => rfl

/-- A request to solve a problem is refused only for the reason that there is no constraint. -/
theorem Prepared.runOn_solve (h : p.Prepared)
    (hinv : ∀ c, p.constraint = some c → c.inv ∈ p.synthFuns) (oracle : Oracle σ) (steps : Nat)
    (config : SearchConfig) (q : σ) :
    (RequestM.solve oracle steps config q).runOn p =
      match p.solve oracle steps config q with
      | .ok solved => solved.map fun (r, p', q') => (.ok (r, q'), p')
      | .error e => some (.error e, p) := by
  rw [RequestM.solve, runOn_bind_of_ok (runOn_modify _), runOn_get_bind]
  obtain ⟨logic, defs, synthFuns, constraint, solutions⟩ := p
  cases constraint with
  | none =>
    obtain rfl : solutions = none := h.unsolved rfl
    rfl
  | some c =>
    have hgrammar := h.grammars _ (hinv c rfl) c.system.constants
    dsimp only at hgrammar ⊢
    rw [hgrammar]
    show runOn _ (liftM _ >>= _) = Option.map _ (Option.bind _ _)
    rw [runOn_liftM_bind, Option.map_bind]
    refine Option.bind_congr fun ⟨s, q'⟩ _ => ?_
    have hconclude := h.runOn_conclude steps c s.state
    dsimp only at hconclude ⊢
    rw [runOn_bind, hconclude, Function.comp_apply]
    cases conclude steps _ c s.state <;> rfl

/-! ## Requests of any kind -/

/-- A request that a user can make to a problem. -/
inductive Request : Type 1 where
  | define (d : FunDef)
  | declare (name : String) (params : List Binder) (ret : Ty) (grammar : Option GrammarSyntax)
  | constrain (inv pre trans post : String)
  | solve {σ : Type} (oracle : Oracle σ) (steps : Nat) (config : SearchConfig) (q : σ)

/-- What a request does. -/
def Request.act : Request → RequestM Unit
  | define d => .define d
  | declare name params ret grammar => .declare name params ret grammar
  | constrain inv pre next post => .constrain inv pre next post
  | solve oracle steps config q => do
    let _ ← RequestM.solve oracle steps config q

/-- The problems that are reached by requests, of which any may be refused. -/
inductive Reached (options : ProblemOptions) : SynthProblem → Prop
  | new {p : SynthProblem} (h : SynthProblem.new options = .ok p) : Reached options p
  | request {p p' : SynthProblem} (h : Reached options p) (r : Request)
      {result : Except SynthesisError Unit} (hr : r.act.runOn p = some (result, p')) :
      Reached options p'

section Stated

variable {options : ProblemOptions} {given : Given} (h : Stated options given p)

include h

theorem Stated.runOn_solve (oracle : Oracle σ) (steps : Nat) (config : SearchConfig) (q : σ) :
    (RequestM.solve oracle steps config q).runOn p =
      match p.solve oracle steps config q with
      | .ok solved => solved.map fun (r, p', q') => (.ok (r, q'), p')
      | .error e => some (.error e, p) :=
  h.prepared.runOn_solve (fun c hc => (h.checked.constraint c hc).elim fun _ hr => hr.2.inv) oracle
    steps config q

/-- A request that is refused changes nothing, and any other states a problem. -/
theorem Stated.runOn {r : Request} {result : Except SynthesisError Unit}
    (hr : r.act.runOn p = some (result, p')) :
    (∀ e, result = .error e → p' = p) ∧ ∃ given', Stated options given' p' := by
  -- The first three requests check everything before they change the problem.
  have hsettle {made : Except SynthesisError SynthProblem}
      (hmade : some (p.settle made) = some (result, p'))
      (hstated : ∀ p', made = .ok p' → ∃ given', Stated options given' p') :
      (∀ e, result = .error e → p' = p) ∧ ∃ given', Stated options given' p' := by
    cases made with
    | ok p'' =>
      obtain ⟨rfl, rfl⟩ := Prod.mk.inj (Option.some.inj hmade)
      exact ⟨nofun, hstated _ rfl⟩
    | error e =>
      obtain ⟨rfl, rfl⟩ := Prod.mk.inj (Option.some.inj hmade)
      exact ⟨fun _ _ => rfl, given, h⟩
  cases r with
  | define d => exact hsettle ((p.runOn_define d).symm.trans hr) fun p' hd => ⟨_, h.define hd⟩
  | declare name params ret grammar =>
    exact hsettle ((p.runOn_declare name params ret grammar).symm.trans hr)
      fun p' hd => ⟨_, h.declare hd⟩
  | constrain inv pre next post =>
    exact hsettle ((p.runOn_constrain inv pre next post).symm.trans hr)
      fun p' hc => ⟨_, h.constrain hc⟩
  | solve oracle steps config q =>
    replace hr : (RequestM.solve oracle steps config q >>= fun _ => pure ()).runOn p =
      some (result, p') := hr
    rw [runOn_bind, h.runOn_solve oracle] at hr
    cases hsolve : p.solve oracle steps config q with
    | error e =>
      rw [hsolve] at hr
      obtain ⟨rfl, rfl⟩ := Prod.mk.inj (Option.some.inj hr)
      exact ⟨fun _ _ => rfl, given, h⟩
    | ok solved =>
      rw [hsolve] at hr
      obtain _ | ⟨r, p'', q'⟩ := solved
      · cases hr
      · obtain ⟨rfl, rfl⟩ := Prod.mk.inj (Option.some.inj hr)
        exact ⟨nofun, given, h.solve hsolve⟩

end Stated

variable {options : ProblemOptions}

/-- Every problem that is reached is stated by the requests that were not refused. -/
theorem Reached.stated (h : Reached options p) : ∃ given, Stated options given p := by
  induction h with
  | new h => exact ⟨_, .new h⟩
  | request _ r hr ih =>
    obtain ⟨given, h⟩ := ih
    exact (h.runOn hr).2

/-- Every problem that is stated is reached, by requests of which none is refused. -/
theorem Stated.reached {given : Given} (h : Stated options given p) : Reached options p := by
  have hmade {r : Request} {p p' : SynthProblem} (hp : Reached options p)
      (hr : r.act.runOn p = some (.ok (), p')) : Reached options p' := hp.request r hr
  induction h with
  | new h => exact .new h
  | @define _ p _ d _ hd ih =>
    refine hmade (r := .define d) ih ?_
    rw [Request.act, p.runOn_define, hd]
    rfl
  | @declare _ p _ name params ret grammar _ hd ih =>
    refine hmade (r := .declare name params ret grammar) ih ?_
    rw [Request.act, p.runOn_declare, hd]
    rfl
  | @constrain _ p _ inv pre next post _ hc ih =>
    refine hmade (r := .constrain inv pre next post) ih ?_
    rw [Request.act, p.runOn_constrain, hc]
    rfl
  | @solve _ p _ τ oracle steps config q q' r h hs ih =>
    refine hmade (r := .solve oracle steps config q) ih ?_
    rw [Request.act, runOn_bind, h.runOn_solve oracle, hs]
    rfl

/-- On every problem that is reached, a request that is refused leaves it exactly as it was. A
request to solve it is refused if and only if there is no constraint, whatever the oracle says, and
before the search takes any step. -/
theorem Reached.refused_spec (h : Reached options p) :
    (∀ (r : Request) (e : SynthesisError) (p' : SynthProblem),
      r.act.runOn p = some (.error e, p') → p' = p) ∧
    ∀ {σ : Type} (oracle : Oracle σ) (steps : Nat) (config : SearchConfig) (q : σ),
      (∃ e p', (RequestM.solve oracle steps config q).runOn p = some (.error e, p')) ↔
        p.constraint = none := by
  obtain ⟨given, h⟩ := h.stated
  refine ⟨fun r e p' hr => (h.runOn hr).1 e rfl, fun oracle steps config q => ?_⟩
  rw [h.runOn_solve oracle]
  cases hc : p.constraint with
  | none => simp [SynthProblem.solve, hc]
  | some c =>
    simp only [SynthProblem.solve, hc, reduceCtorEq, iff_false, not_exists]
    intro e p' hrefused
    obtain ⟨x, -, hx⟩ := Option.map_eq_some_iff.1 hrefused
    cases hx

/-- The problem of the counter after it was solved. -/
def solvedCounter : SynthProblem :=
  { counter with solutions := some [counterConstraint.inv.defineAs (.bool true)] }

theorem reached_solvedCounter : Reached .default solvedCounter := by
  obtain ⟨r, hsolve, -⟩ := solve_of_counterConstraint rfl rfl
    (show counter.complete 2 counterConstraint (.bool true) =
      some [counterConstraint.inv.defineAs (.bool true)] from rfl)
  exact (stated_counter.solve hsolve).reached

/-- On a problem with one definition, that definition is refused the second time, and there is
nothing to solve yet. On a problem with a constraint that was solved, a second constraint is
refused, and so is a predicate of a name that is taken. The solutions stay, and the problem can be
solved again. -/
theorem refused_redeclared :
    (∃ p, Reached .default p ∧ p.defs = [counterConstraint.post] ∧
      (Request.define counterConstraint.post).act.runOn p = some (.error (.redeclared "post"), p) ∧
      ∃ e p', (RequestM.solve Oracle.trivial 0 ⟨none, none, none, false⟩ ()).runOn p =
        some (.error e, p')) ∧
    Reached .default solvedCounter ∧
    (Request.constrain "inv" "pre" "trans" "post").act.runOn solvedCounter =
      some (.error .secondConstraint, solvedCounter) ∧
    (Request.declare "post" [] .bool none).act.runOn solvedCounter =
      some (.error (.redeclared "post"), solvedCounter) ∧
    ¬∃ e p', (RequestM.solve Oracle.trivial 0 ⟨none, none, none, false⟩ ()).runOn solvedCounter =
      some (.error e, p') := by
  have hempty : Reached .default ⟨.lia, [], [], none, none⟩ := .new rfl
  have hdefined : Reached .default ⟨.lia, [counterConstraint.post], [], none, none⟩ :=
    hempty.request (.define counterConstraint.post) rfl
  obtain ⟨hunchanged, hsolve⟩ := hdefined.refused_spec
  obtain ⟨p', hrefused⟩ : ∃ p', (Request.define counterConstraint.post).act.runOn
      ⟨.lia, [counterConstraint.post], [], none, none⟩ =
        some (.error (.redeclared "post"), p') := ⟨_, rfl⟩
  obtain rfl := hunchanged _ _ _ hrefused
  obtain ⟨hkept, hsolvable⟩ := reached_solvedCounter.refused_spec
  obtain ⟨p₁, hconstrain⟩ : ∃ p', (Request.constrain "inv" "pre" "trans" "post").act.runOn
      solvedCounter = some (.error .secondConstraint, p') := ⟨_, rfl⟩
  obtain ⟨p₂, hdeclare⟩ : ∃ p', (Request.declare "post" [] .bool none).act.runOn solvedCounter =
      some (.error (.redeclared "post"), p') := ⟨_, rfl⟩
  obtain rfl := hkept _ _ _ hconstrain
  obtain rfl := hkept _ _ _ hdeclare
  refine ⟨⟨_, hdefined, rfl, hrefused, (hsolve .trivial 0 ⟨none, none, none, false⟩ ()).2 rfl⟩,
    reached_solvedCounter, hconstrain, hdeclare, fun hrefused => ?_⟩
  cases (hsolvable .trivial 0 ⟨none, none, none, false⟩ ()).1 hrefused

end SynthProblem

end InvariantSearch
