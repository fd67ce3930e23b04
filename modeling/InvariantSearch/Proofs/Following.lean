import InvariantSearch.Proofs.Declarations
import InvariantSearch.Synthesis.Execute

/-!
# Commands that are followed

The commands of a problem file act on one problem, and a check leaves its solutions behind there.
Still every check solves the problem that the declarations before it state and nothing else
(`Executor.Accepts`), since neither declarations nor checks look at solutions. Commands are followed
up to the first that is refused (`Progress.Followed.follow`), so commands of which none is refused
are followed to the end (`Executor.Accepts.exists_follow`).
-/

namespace InvariantSearch

variable {σ : Type} {o : ProblemOptions}

/-! ## Problems without their solutions -/

/-- The rule `map_bind` in terms of `Except.map`. -/
theorem map_bind_eq {ε α β γ : Type} (x : Except ε α) (f : α → Except ε β) (g : β → γ) :
    (x >>= f).map g = x >>= fun a => (f a).map g :=
  map_bind g x f

namespace SynthProblem

variable {p p' : SynthProblem} {ds : List Declaration} {d : Declaration}

/-- The problem with nothing found. -/
def unsolved (p : SynthProblem) : SynthProblem := { p with solutions := none }

theorem constrain_unsolved (p : SynthProblem) (inv pre trans post : String) :
    p.unsolved.constrain inv pre trans post = (p.constrain inv pre trans post).map unsolved := by
  have hfun : p.unsolved.synthFun? inv = p.synthFun? inv := rfl
  have hpredicate : p.unsolved.predicate = p.predicate := rfl
  rw [SynthProblem.constrain, SynthProblem.constrain, hfun]
  show (if p.constraint.isSome = true then _ else _) = _
  cases p.constraint with
  | some c => rfl
  | none =>
    cases p.synthFun? inv with
    | none => rfl
    | some f =>
      dsimp only
      cases primedClash? f.params with
      | some x => rfl
      | none =>
        show (p.unsolved.predicate pre _ >>= _) = (p.predicate pre _ >>= _).map unsolved
        simp only [map_bind_eq, hpredicate]
        rfl

/-- A declaration does not look at the solutions. -/
theorem Declaration.addTo_unsolved (d : Declaration) (p : SynthProblem) :
    d.addTo p.unsolved = (d.addTo p).map unsolved := by
  cases d with
  | define d =>
    simp only [addTo, SynthProblem.define, map_bind_eq]
    rfl
  | declare name params ret grammar =>
    rw [addTo, addTo, SynthProblem.declare, SynthProblem.declare, map_bind_eq]
    refine congrArg _ (funext fun b? => ?_)
    rw [map_bind_eq]
    refine congrArg _ (funext fun _ => ?_)
    split
    next => rfl
    next =>
      simp only [map_bind_eq]
      rfl
  | constrain inv pre next post => exact p.constrain_unsolved inv pre next post

/-- Nor does a check, which forgets them first. -/
theorem runOn_solve_unsolved (oracle : Oracle σ) (steps : Nat) (config : SearchConfig) (q : σ)
    (p : SynthProblem) : (RequestM.solve oracle steps config q).runOn p.unsolved =
      (RequestM.solve oracle steps config q).runOn p := by
  rw [RequestM.solve, RequestM.runOn_bind_of_ok (RequestM.runOn_modify _),
    RequestM.runOn_bind_of_ok (RequestM.runOn_modify _)]
  rfl

namespace Declared

/-- The last of the declarations and the problem before it. -/
theorem exists_of_concat (h : Declared o (ds ++ [d]) p') :
    ∃ p, Declared o ds p ∧ d.act.runOn p = some (.ok (), p') := by
  generalize hall : ds ++ [d] = all at h
  cases h with
  | nil => simp at hall
  | @snoc ds' d' p _ h hd =>
    obtain ⟨rfl, hlast⟩ := List.append_inj' hall rfl
    obtain rfl := List.singleton_inj.1 hlast
    exact ⟨p, h, hd⟩

/-- Declarations state one problem. -/
theorem unique (h : Declared o ds p) (h' : Declared o ds p') : p' = p := by
  induction h generalizing p' with
  | nil h =>
    generalize hnil : [] = none at h'
    cases h' with
    | nil h' => exact Except.ok.inj (h'.symm.trans h)
    | snoc => simp at hnil
  | snoc _ hd ih =>
    obtain ⟨p₁, h₁, hd₁⟩ := h'.exists_of_concat
    obtain rfl := ih h₁
    rw [hd] at hd₁
    exact (Prod.mk.inj (Option.some.inj hd₁)).2.symm

/-- Declarations find nothing. -/
theorem unsolved_eq (h : Declared o ds p) : p.unsolved = p := by
  induction h with
  | nil h => rw [new_eq_ok h]; rfl
  | @snoc ds d p p' _ hd ih =>
    have hadd := Declaration.addTo_of_act hd
    have hsame := d.addTo_unsolved p
    rw [ih, hadd] at hsame
    exact (Except.ok.inj hsame).symm

/-- A check is refused for the lack of a constraint, or else it changes the solutions alone. -/
theorem solve_cases (h : Declared o ds p) (oracle : Oracle σ) (steps : Nat) (config : SearchConfig)
    (q : σ) {made : Except SynthesisError (SynthResult × σ) × SynthProblem}
    (hsolve : (RequestM.solve oracle steps config q).runOn p = some made) :
    made.1 = .error .noConstraint ∧ p.constraint = none ∨
      (∃ r, made.1 = .ok r) ∧ made.2.unsolved = p := by
  obtain ⟨given, hstated⟩ := h.stated
  rw [hstated.runOn_solve oracle] at hsolve
  cases hmade : p.solve oracle steps config q with
  | error e =>
    rw [hmade] at hsolve
    obtain rfl := Option.some.inj hsolve
    cases hc : p.constraint with
    | none =>
      rw [SynthProblem.solve, hc] at hmade
      obtain rfl := Except.error.inj hmade
      exact .inl ⟨rfl, rfl⟩
    | some c =>
      rw [SynthProblem.solve, hc] at hmade
      cases hmade
  | ok solved =>
    rw [hmade] at hsolve
    obtain ⟨⟨r, p', q'⟩, rfl, rfl⟩ := Option.map_eq_some_iff.1 hsolve
    obtain ⟨c, s, solutions, -, -, -, rfl⟩ := solve_eq_ok hmade
    exact .inr ⟨⟨_, rfl⟩, h.unsolved_eq⟩

end Declared

end SynthProblem

open SynthProblem

/-! ## Commands that are accepted -/

/-- The declaration that a command makes. -/
def Command.declaration? : Command → Option Declaration
  | .defineFun d => some (.define d)
  | .synthFun name params ret grammar => some (.declare name params ret grammar)
  | .invConstraint inv pre next post => some (.constrain inv pre next post)
  | .setLogic _ | .setOption .. | .declareVar _ | .checkSynth => none

/-- The declarations that commands make, in order. -/
def declarations (cs : List (Span × Command)) : List Declaration :=
  cs.filterMap (·.2.declaration?)

/-- The state that the oracle goes on from: the one that it has kept, or else the one in which it is
started. -/
def Executor.goesOnFrom (x : Executor σ) (logic : Logic) : Option σ → Except String σ
  | some q => .ok q
  | none => x.start logic

/-- The commands are accepted one after the other, and leave the oracle in a state, if it was
started, and the checks among them come to the verdicts. A declaration is accepted by the problem
that the declarations before it state, and a check solves the problem that exactly these state. -/
inductive Executor.Accepts (x : Executor σ) (steps : Nat) (o : ProblemOptions) :
    List (Span × Command) → Option σ → List Verdict → Prop
  | nil : Accepts x steps o [] none []
  | ignore {cs : List (Span × Command)} {q : Option σ} {vs : List Verdict}
    (h : Accepts x steps o cs q vs) (span : Span) (b : Binder) :
    Accepts x steps o (cs ++ [(span, .declareVar b)]) q vs
  | declare {cs : List (Span × Command)} {q : Option σ} {vs : List Verdict} {c : Command}
    {d : Declaration} {p : SynthProblem} (h : Accepts x steps o cs q vs) (span : Span)
    (hc : c.declaration? = some d) (hd : Declared o (declarations cs ++ [d]) p) :
    Accepts x steps o (cs ++ [(span, c)]) q vs
  | check {cs : List (Span × Command)} {q : Option σ} {vs : List Verdict} {q₀ q' : σ}
    {p p' : SynthProblem} {result : SynthResult} (h : Accepts x steps o cs q vs) (span : Span)
    (hp : Declared o (declarations cs) p) (hq : x.goesOnFrom o.logic q = .ok q₀)
    (hsolve : (RequestM.solve (x.oracle o.logic) steps (x.config vs.length) q₀).runOn p =
      some (.ok (result, q'), p')) :
    Accepts x steps o (cs ++ [(span, .checkSynth)]) (some q')
      (vs ++ [⟨result, p'.solution.toOption.getD []⟩])

/-- The reason for which a command is refused after others, of which none is. -/
inductive Refuses (o : ProblemOptions) (cs : List (Span × Command)) :
    Command → ExecutionError → Prop
  | option {c : Command} (hc : c.isOption = true) : Refuses o cs c .lateOption
  | declare {c : Command} {d : Declaration} {p p' : SynthProblem} {e : SynthesisError}
    (hc : c.declaration? = some d) (hp : Declared o (declarations cs) p)
    (hd : d.act.runOn p = some (.error e, p')) : Refuses o cs c (.refused e)
  | check {p : SynthProblem} (hp : Declared o (declarations cs) p) (hnone : p.constraint = none) :
    Refuses o cs .checkSynth (.refused .noConstraint)

/-- The failure, if there is one, is that of the first command that is left. -/
def Blames (o : ProblemOptions) (done left : List (Span × Command)) : Option Failure → Prop
  | none => left = []
  | some f => ∃ c rest, left = (f.span, c) :: rest ∧ Refuses o done c f.error

section

variable {cs : List (Span × Command)} {span : Span} {c : Command} {d : Declaration}

theorem declarations_concat_of_some (hc : c.declaration? = some d) :
    declarations (cs ++ [(span, c)]) = declarations cs ++ [d] := by
  simp [declarations, hc]

theorem declarations_concat_of_none (hc : c.declaration? = none) :
    declarations (cs ++ [(span, c)]) = declarations cs := by
  simp [declarations, hc]

theorem Command.isOption_of_declaration (hc : c.declaration? = some d) : c.isOption = false := by
  cases c with
  | setLogic | setOption | declareVar | checkSynth => cases hc
  | defineFun | synthFun | invConstraint => rfl

/-- No option is accepted. -/
theorem Executor.Accepts.isOption_eq_false {x : Executor σ} {steps : Nat} {q : Option σ}
    {vs : List Verdict} (h : x.Accepts steps o cs q vs) : ∀ c ∈ cs, c.2.isOption = false := by
  induction h with
  | nil => simp
  | ignore _ _ _ ih => exact List.forall_mem_append.2 ⟨ih, List.forall_mem_singleton.2 rfl⟩
  | declare _ _ hc _ ih =>
    exact List.forall_mem_append.2
      ⟨ih, List.forall_mem_singleton.2 (Command.isOption_of_declaration hc)⟩
  | check _ _ _ _ _ ih => exact List.forall_mem_append.2 ⟨ih, List.forall_mem_singleton.2 rfl⟩

end

/-! ## Following commands -/

namespace Progress

variable {x : Executor σ} {steps : Nat} {cs : List (Span × Command)} {c : Command}
  {d : Declaration} {s s' : Progress σ} {e : ExecutionError}

/-- The commands are followed: they are accepted with what has come of them, and the problem is
stated by their declarations, apart from its solutions. -/
structure Followed (x : Executor σ) (steps : Nat) (o : ProblemOptions)
    (cs : List (Span × Command)) (s : Progress σ) : Prop where
  accepts : x.Accepts steps o cs s.oracle s.verdicts
  declared : Declared o (declarations cs) s.problem.unsolved

theorem step_of_declaration (hc : c.declaration? = some d) :
    s.step x steps c = s.declare d.act := by
  cases c with
  | setLogic | setOption | declareVar | checkSynth => cases hc
  | defineFun | synthFun | invConstraint =>
    obtain rfl := Option.some.inj hc
    rfl

/-- A declaration is made as it would be if nothing had been found. -/
theorem declare_eq (s : Progress σ) (d : Declaration) : s.declare d.act =
    match d.addTo s.problem with
    | .ok problem => .ok (some { s with problem })
    | .error e => .error (.refused e) := by
  rw [declare, request, Declaration.runOn_act]
  cases d.addTo s.problem <;> rfl

namespace Followed

variable (h : Followed x steps o cs s)

include h

theorem logic_eq : s.problem.logic = o.logic :=
  h.declared.logic_eq

theorem ignore (span : Span) (b : Binder) :
    Followed x steps o (cs ++ [(span, .declareVar b)]) s := by
  refine ⟨h.accepts.ignore span b, ?_⟩
  rw [declarations_concat_of_none rfl]
  exact h.declared

/-- A declaration that the problem accepts is also accepted by the one that the declarations before
it state. -/
theorem declare {p : SynthProblem} (span : Span) (hc : c.declaration? = some d)
    (hadd : d.addTo s.problem = .ok p) :
    Followed x steps o (cs ++ [(span, c)]) { s with problem := p } := by
  have hact := d.runOn_act s.problem.unsolved
  rw [d.addTo_unsolved, hadd] at hact
  have hdeclared : Declared o (declarations cs ++ [d]) p.unsolved := h.declared.snoc hact
  refine ⟨h.accepts.declare span hc hdeclared, ?_⟩
  rwa [declarations_concat_of_some hc]

/-- What the problem refuses is refused by the one that the declarations before it state. -/
theorem refuses_of_addTo {e : SynthesisError} (hc : c.declaration? = some d)
    (hadd : d.addTo s.problem = .error e) : Refuses o cs c (.refused e) := by
  have hact := d.runOn_act s.problem.unsolved
  rw [d.addTo_unsolved, hadd] at hact
  exact .declare hc h.declared hact

/-- A check leaves the problem as it is stated. -/
theorem check {q₀ q' : σ} {p' : SynthProblem} {result : SynthResult} (span : Span)
    (hq : x.goesOnFrom o.logic s.oracle = .ok q₀)
    (hsolve : (RequestM.solve (x.oracle o.logic) steps (x.config s.verdicts.length) q₀).runOn
      s.problem.unsolved = some (.ok (result, q'), p')) :
    Followed x steps o (cs ++ [(span, .checkSynth)])
      ⟨p', some q', s.verdicts ++ [⟨result, p'.solution.toOption.getD []⟩]⟩ := by
  refine ⟨h.accepts.check span h.declared hq hsolve, ?_⟩
  rw [declarations_concat_of_none rfl]
  rcases h.declared.solve_cases _ _ _ _ hsolve with ⟨herror, -⟩ | ⟨-, hp'⟩
  · cases herror
  · show Declared o _ p'.unsolved
    rw [hp']
    exact h.declared

/-- A check solves the problem that the declarations before it state. -/
theorem check_eq {q₀ : σ} (hq : x.goesOnFrom o.logic s.oracle = .ok q₀) : s.check x steps =
    (request { s with problem := s.problem.unsolved }
      (.solve (x.oracle o.logic) steps (x.config s.verdicts.length) q₀)).map
        (Option.map fun ((result, q'), p') =>
          ⟨p', some q', s.verdicts ++ [⟨result, p'.solution.toOption.getD []⟩]⟩) := by
  have hlogic : s.problem.logic = o.logic := h.declared.logic_eq
  rw [Progress.check, hlogic, request, runOn_solve_unsolved, ← request]
  cases hs : s.oracle with
  | some q =>
    rw [hs] at hq
    obtain rfl := Except.ok.inj hq
    rfl
  | none =>
    rw [hs] at hq
    rw [show x.start o.logic = .ok q₀ from hq]
    rfl

/-- What can come of the next command, if the oracle can be started. -/
theorem step_cases (span : Span) (c : Command) (hstart : ∃ q, x.start o.logic = .ok q) :
    (∃ s', s.step x steps c = .ok (some s') ∧ Followed x steps o (cs ++ [(span, c)]) s') ∨
    s.step x steps c = .ok none ∨
    ∃ e, s.step x steps c = .error e ∧ Refuses o cs c e := by
  cases hc : c.declaration? with
  | some d =>
    rw [step_of_declaration hc, declare_eq]
    cases hadd : d.addTo s.problem with
    | ok p => exact .inl ⟨_, rfl, h.declare span hc hadd⟩
    | error e => exact .inr (.inr ⟨_, rfl, h.refuses_of_addTo hc hadd⟩)
  | none =>
    cases c with
    | setLogic | setOption => exact .inr (.inr ⟨_, rfl, .option rfl⟩)
    | declareVar b => exact .inl ⟨s, rfl, h.ignore span b⟩
    | defineFun | synthFun | invConstraint => cases hc
    | checkSynth =>
      obtain ⟨q₀, hq⟩ : ∃ q₀, x.goesOnFrom o.logic s.oracle = .ok q₀ := by
        cases s.oracle with
        | none => exact hstart
        | some q => exact ⟨q, rfl⟩
      rw [step, h.check_eq hq]
      dsimp only [request]
      cases hsolve : (RequestM.solve (x.oracle o.logic) steps
          (x.config s.verdicts.length) q₀).runOn s.problem.unsolved with
      | none => exact .inr (.inl rfl)
      | some made =>
        obtain ⟨e | ⟨result, q'⟩, p'⟩ := made
        · rcases h.declared.solve_cases _ _ _ _ hsolve with ⟨herror, hnone⟩ | ⟨⟨r, hok⟩, -⟩
          · obtain rfl := Except.error.inj herror
            exact .inr (.inr ⟨_, rfl, .check h.declared hnone⟩)
          · cases hok
        · exact .inl ⟨_, rfl, h.check span hq hsolve⟩

/-- Commands are followed up to the first that is refused. -/
theorem follow {rest : List (Span × Command)} {failure : Option Failure}
    (hstart : ∃ q, x.start o.logic = .ok q)
    (hfollow : s.follow x steps rest = some (s', failure)) : ∃ done left, rest = done ++ left ∧
      Followed x steps o (cs ++ done) s' ∧ Blames o (cs ++ done) left failure := by
  induction rest generalizing cs s with
  | nil =>
    obtain ⟨rfl, rfl⟩ := Prod.mk.inj (Option.some.inj hfollow)
    exact ⟨[], [], rfl, by rwa [List.append_nil], rfl⟩
  | cons c rest ih =>
    obtain ⟨span, c⟩ := c
    rw [Progress.follow] at hfollow
    rcases h.step_cases span c hstart with ⟨s₁, hstep, h₁⟩ | hstep | ⟨e, hstep, hrefuses⟩
    · rw [hstep] at hfollow
      obtain ⟨done, left, rfl, hfollowed, hblames⟩ := ih h₁ hfollow
      rw [List.append_assoc] at hfollowed hblames
      exact ⟨(span, c) :: done, left, rfl, hfollowed, hblames⟩
    · rw [hstep] at hfollow
      cases hfollow
    · rw [hstep] at hfollow
      obtain ⟨rfl, rfl⟩ := Prod.mk.inj (Option.some.inj hfollow)
      refine ⟨[], (span, c) :: rest, rfl, ?_, c, rest, rfl, ?_⟩
      · rwa [List.append_nil]
      · rwa [List.append_nil]

end Followed

/-- One more command is followed. -/
theorem follow_concat {s₁ s₂ : Progress σ} (hfollow : s.follow x steps cs = some (s₁, none))
    (span : Span) (hstep : s₁.step x steps c = .ok (some s₂)) :
    s.follow x steps (cs ++ [(span, c)]) = some (s₂, none) := by
  induction cs generalizing s with
  | nil =>
    obtain ⟨rfl, -⟩ := Prod.mk.inj (Option.some.inj hfollow)
    rw [List.nil_append, follow, hstep]
    rfl
  | cons c' cs ih =>
    obtain ⟨span', c'⟩ := c'
    rw [follow] at hfollow
    rw [List.cons_append, follow]
    split at hfollow
    next => cases hfollow
    next => cases hfollow
    next => exact ih hfollow

end Progress

/-- Commands that are accepted are followed to the end. -/
theorem Executor.Accepts.exists_follow {x : Executor σ} {steps : Nat} {cs : List (Span × Command)}
    {q : Option σ} {vs : List Verdict} {p : SynthProblem} (h : x.Accepts steps o cs q vs)
    (hp : Declared o [] p) : ∃ s, (Progress.new p).follow x steps cs = some (s, none) ∧
      s.Followed x steps o cs ∧ s.oracle = q ∧ s.verdicts = vs := by
  induction h with
  | nil =>
    refine ⟨.new p, rfl, ⟨.nil, ?_⟩, rfl, rfl⟩
    rw [Progress.new, hp.unsolved_eq]
    exact hp
  | ignore _ span b ih =>
    obtain ⟨s, hfollow, hfollowed, hq, hvs⟩ := ih
    exact ⟨s, Progress.follow_concat hfollow span rfl, hfollowed.ignore span b, hq, hvs⟩
  | @declare cs q vs c d p' _ span hc hd ih =>
    obtain ⟨s, hfollow, hfollowed, hq, hvs⟩ := ih
    obtain ⟨p₁, hp₁, hact⟩ := hd.exists_of_concat
    obtain rfl := hfollowed.declared.unique hp₁
    have hadd := Declaration.addTo_of_act hact
    rw [d.addTo_unsolved] at hadd
    cases hadd' : d.addTo s.problem with
    | error e =>
      rw [hadd'] at hadd
      cases hadd
    | ok p₂ =>
      have hstep : s.step x steps c = .ok (some { s with problem := p₂ }) := by
        rw [Progress.step_of_declaration hc, Progress.declare_eq, hadd']
      exact ⟨_, Progress.follow_concat hfollow span hstep, hfollowed.declare span hc hadd', hq, hvs⟩
  | check _ span hp hq hsolve ih =>
    obtain ⟨s, hfollow, hfollowed, rfl, rfl⟩ := ih
    obtain rfl := hfollowed.declared.unique hp
    have hstep := hfollowed.check_eq hq
    dsimp only [Progress.request] at hstep
    rw [hsolve] at hstep
    exact ⟨_, Progress.follow_concat hfollow span hstep, hfollowed.check span hq hsolve, rfl, rfl⟩

end InvariantSearch
