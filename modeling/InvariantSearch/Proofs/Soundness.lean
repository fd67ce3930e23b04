import InvariantSearch.Proofs.Candidates
import InvariantSearch.Proofs.Conditions

/-!
# Soundness of solutions

A problem is stated by a sequence of definitions, declarations, constraints and requests to solve it
(`SynthProblem.Stated`). Every such problem is checked: its definitions mean what was given, and its
constraint names predicates among them (`SynthProblem.Checked`). So a solution that is found with a
sound oracle is an inductive invariant of the definitions as they were given (`solve_sound`).
-/

namespace InvariantSearch

variable {σ : Type}

/-- The oracle finds no condition valid that is false for some values of its variables. -/
def Oracle.Sound (oracle : Oracle σ) : Prop := ∀ c, oracle.Answers c .valid → c.NeverFalse

/-- The oracle that finds implications of the literal `true` valid, and decides nothing else. -/
def Oracle.trivial : Oracle Unit := .ofFunction fun c =>
  match c.formula with
  | .binary .implies _ (.bool true) => .valid
  | _ => .unknown "not decided"

theorem Oracle.sound_trivial : Oracle.trivial.Sound := by
  rintro c ⟨q, hq⟩ ρ -
  have hanswer : (match c.formula with
    | .binary .implies _ (.bool true) => Decision.valid
    | _ => .unknown "not decided") = .valid := hq
  split at hanswer
  next s hformula =>
    rw [hformula, Term.meaning]
    cases s.meaning .empty ρ with
    | none => simp
    | some v => cases v <;> simp [Term.meaning, BinaryOp.exact]
  next => cases hanswer

/-! ## What is found -/

namespace Search

variable {g : Grammar} {oracle : Oracle σ} {ts : TransitionSystem} {config : SearchConfig}
  {s : Search g} {q : σ} {t : Term}

/-- What a search finds is a term of the grammar whose conditions the oracle found valid. -/
theorem Reachable.found (h : Reachable oracle ts g config s q) (hs : s.state = .found t) :
    (∃ size, g.Derives Grammar.start size t) ∧ ∀ c ∈ ts.conditions t, oracle.Answers c .valid := by
  obtain ⟨drawn, hexplored, rfl, -⟩ := h.explored
  obtain ⟨hdrawn, hvalid⟩ := hexplored.found t hs
  obtain ⟨size, hsize, -⟩ := hexplored.reached.out_spec.2.1 t hdrawn
  exact ⟨⟨size, (Grammar.isLeast_minSize.1 hsize).1⟩, hvalid⟩

end Search

namespace SynthProblem

/-! ## Stating a problem -/

/-- The names in a constraint. -/
structure ConstraintNames where
  inv : String
  pre : String
  trans : String
  post : String

/-- What a problem was given: the definitions as they were written, and the names in the
constraint. -/
structure Given where
  defs : List FunDef
  constraint : Option ConstraintNames

/-- The problems that are stated, with what they were given. A request that is refused leaves the
problem as it is, and any oracle may be asked to solve it. -/
inductive Stated (options : ProblemOptions) : Given → SynthProblem → Prop
  | new {p : SynthProblem} (h : SynthProblem.new options = .ok p) : Stated options ⟨[], none⟩ p
  | define {given : Given} {p p' : SynthProblem} {d : FunDef} (h : Stated options given p)
      (hd : p.define d = .ok p') : Stated options { given with defs := given.defs ++ [d] } p'
  | declare {given : Given} {p p' : SynthProblem} {name : String} {params : List Binder} {ret : Ty}
      {grammar : Option GrammarSyntax} (h : Stated options given p)
      (hd : p.declare name params ret grammar = .ok p') : Stated options given p'
  | constrain {given : Given} {p p' : SynthProblem} {inv pre trans post : String}
      (h : Stated options given p) (hc : p.constrain inv pre trans post = .ok p') :
      Stated options { given with constraint := some ⟨inv, pre, trans, post⟩ } p'
  | solve {given : Given} {p p' : SynthProblem} {τ : Type} {oracle : Oracle τ} {steps : Nat}
      {config : SearchConfig} {q q' : τ} {r : SynthResult} (h : Stated options given p)
      (hs : p.solve oracle steps config q = .ok (some (r, p', q'))) : Stated options given p'

/-! ## What was checked -/

/-- The constraint is about a function to synthesize and definitions of the problem, which have the
given names. -/
structure Relates (p : SynthProblem) (names : ConstraintNames) (c : InvConstraint) : Prop where
  inv : c.inv ∈ p.synthFuns
  pre : c.pre ∈ p.defs
  trans : c.trans ∈ p.defs
  post : c.post ∈ p.defs
  names_eq : names = ⟨c.inv.name, c.pre.name, c.trans.name, c.post.name⟩
  clash : primedClash? c.inv.params = none
  preTys : c.pre.params.map (·.ty) = c.inv.params.map (·.ty)
  transTys : c.trans.params.map (·.ty) = c.inv.params.map (·.ty) ++ c.inv.params.map (·.ty)
  postTys : c.post.params.map (·.ty) = c.inv.params.map (·.ty)
  postRet : c.post.ret = .bool

/-- What the checks of a problem ensure. -/
structure Checked (given : Given) (p : SynthProblem) : Prop where
  defs : Implements (.ofDefs given.defs) p.defs
  params : ∀ f ∈ p.synthFuns, (f.params.map (·.name)).Nodup
  grammar : ∀ f ∈ p.synthFuns, ∀ b, f.grammar = some b → b.Checked f.params
  nodup : (p.synthFuns.map (·.name)).Nodup
  constraint : ∀ c, p.constraint = some c → ∃ names, given.constraint = some names ∧
    p.Relates names c

variable {given : Given} {p p' : SynthProblem} {names : ConstraintNames} {c : InvConstraint}

theorem new_eq_ok {options : ProblemOptions} (h : SynthProblem.new options = .ok p) :
    p = ⟨options.logic, [], [], none, none⟩ := by
  unfold SynthProblem.new at h
  split at h
  next => cases h
  next =>
    split at h
    next => cases h
    next => exact (Except.ok.inj h).symm

theorem checked_new {options : ProblemOptions} (h : SynthProblem.new options = .ok p) :
    p.Checked ⟨[], none⟩ := by
  obtain rfl := new_eq_ok h
  exact ⟨Implements.nil, by simp, by simp, List.nodup_nil, by simp⟩

/-- More definitions and functions to synthesize leave a constraint as it is. -/
theorem Relates.mono (h : p.Relates names c) (hdefs : ∀ d ∈ p.defs, d ∈ p'.defs)
    (hfuns : ∀ f ∈ p.synthFuns, f ∈ p'.synthFuns) : p'.Relates names c :=
  { h with
    inv := hfuns _ h.inv
    pre := hdefs _ h.pre
    trans := hdefs _ h.trans
    post := hdefs _ h.post }

theorem contains_of_mem {d : FunDef} (hd : d ∈ p.defs) : p.signature.contains d.name = true := by
  refine List.find?_isSome.2 ⟨d.decl, List.mem_map_of_mem hd, ?_⟩
  simp [FunDef.decl]

/-- A name that is not taken is that of no definition and of no function to synthesize. -/
theorem checkFresh_eq_ok {name : String} {u : Unit} (h : p.checkFresh name = .ok u) :
    (∀ d ∈ p.defs, d.name ≠ name) ∧ ∀ f ∈ p.synthFuns, f.name ≠ name := by
  unfold checkFresh at h
  split at h
  next => cases h
  next hfresh =>
    rw [Bool.or_eq_true, not_or] at hfresh
    refine ⟨fun d hd hname => hfresh.1 (hname ▸ contains_of_mem hd), fun f hf hname => hfresh.2 ?_⟩
    exact List.find?_isSome.2 ⟨f, hf, by simpa using hname⟩

theorem nodup_of_checkParams {name : String} {params : List Binder} {u : Unit}
    (h : p.checkParams name params = .ok u) : (params.map (·.name)).Nodup := by
  obtain ⟨ctx, hctx, -⟩ := bind_eq_ok_iff.1 h
  exact (Context.ofBinders?_eq_ok (mapError_eq_ok_iff.1 hctx)).2

/-- The body of a definition that is checked has the declared sort. -/
theorem hasTy_of_check {sig : Signature} {d : FunDef} {u : Unit} (h : d.check sig = .ok u) :
    Term.HasTy sig (.ofBinders d.params) d.body d.ret := by
  unfold FunDef.check at h
  split at h
  next => cases h
  next =>
    obtain ⟨ctx, hctx, h⟩ := bind_eq_ok_iff.1 h
    obtain ⟨rfl, -⟩ := Context.ofBinders?_eq_ok hctx
    exact Term.checkSort_eq_ok_iff.1 h

/-- A definition that is accepted is checked, and added with its calls replaced. -/
theorem define_eq_ok {d : FunDef} (hd : p.define d = .ok p') :
    p.checkFresh d.name = .ok () ∧ p.checkParams d.name d.params = .ok () ∧
      d.check p.signature = .ok () ∧ p.logic.admits d.body = .ok () ∧
      p' = { p with defs := p.defs ++ [d.inline p.defs] } := by
  obtain ⟨_, hfresh, hd⟩ := bind_eq_ok_iff.1 hd
  obtain ⟨_, hparams, hd⟩ := bind_eq_ok_iff.1 hd
  obtain ⟨_, hcheck, hd⟩ := bind_eq_ok_iff.1 hd
  obtain ⟨_, hadmits, hd⟩ := bind_eq_ok_iff.1 hd
  exact ⟨hfresh, hparams, mapError_eq_ok_iff.1 hcheck, mapError_eq_ok_iff.1 hadmits,
    (Except.ok.inj hd).symm⟩

/-- A definition is read as it was given. -/
theorem Checked.define (h : p.Checked given) {d : FunDef} (hd : p.define d = .ok p') :
    p'.Checked { given with defs := given.defs ++ [d] } := by
  obtain ⟨hfresh, -, hcheck, -, rfl⟩ := define_eq_ok hd
  refine ⟨?_, h.params, h.grammar, h.nodup, fun c hc => ?_⟩
  · rw [Interpretation.ofDefs_append]
    exact h.defs.snoc (checkFresh_eq_ok hfresh).1 (hasTy_of_check hcheck)
  · obtain ⟨names, hnames, hc⟩ := h.constraint c hc
    exact ⟨names, hnames, hc.mono (fun _ => List.mem_append_left _) fun _ hf => hf⟩

/-- A grammar that is written is built step by step. -/
theorem ofSyntax_of_checkGrammar {params : List Binder} {grammar : Option GrammarSyntax}
    {b : GrammarBuilder} (h : grammar.mapM (p.checkGrammar params) = .ok (some b)) :
    ∃ g, GrammarBuilder.ofSyntax params p.logic g = .ok b := by
  cases grammar with
  | none => cases h
  | some grammar =>
    obtain ⟨b', hb, hsome⟩ := bind_eq_ok_iff.1 h
    obtain rfl := Option.some.inj (Except.ok.inj hsome)
    obtain ⟨b'', hb', hbuild⟩ := bind_eq_ok_iff.1 hb
    obtain ⟨_, -, hb''⟩ := bind_eq_ok_iff.1 hbuild
    obtain rfl := Except.ok.inj hb''
    exact ⟨grammar, hb'⟩

/-- A function to synthesize that is accepted is a predicate and is checked. -/
theorem declare_eq_ok {name : String} {params : List Binder} {ret : Ty}
    {grammar : Option GrammarSyntax} (hd : p.declare name params ret grammar = .ok p') :
    ∃ b?, grammar.mapM (p.checkGrammar params) = .ok b? ∧ p.checkFresh name = .ok () ∧
      ret = .bool ∧ p.checkParams name params = .ok () ∧
      p' = { p with synthFuns := p.synthFuns ++ [⟨name, params, b?⟩] } := by
  obtain ⟨b?, hgrammar, hd⟩ := bind_eq_ok_iff.1 hd
  obtain ⟨_, hfresh, hd⟩ := bind_eq_ok_iff.1 hd
  split at hd
  next => cases hd
  next hret =>
    obtain ⟨_, hparams, hd⟩ := bind_eq_ok_iff.1 hd
    exact ⟨b?, mapError_eq_ok_iff.1 hgrammar, hfresh, not_not.1 hret, hparams,
      (Except.ok.inj hd).symm⟩

theorem Checked.declare (h : p.Checked given) {name : String} {params : List Binder} {ret : Ty}
    {grammar : Option GrammarSyntax} (hd : p.declare name params ret grammar = .ok p') :
    p'.Checked given := by
  obtain ⟨b?, hgrammar, hfresh, -, hparams, rfl⟩ := declare_eq_ok hd
  refine ⟨h.defs, fun f hf => ?_, fun f hf => ?_, ?_, fun c hc => ?_⟩
  · rcases List.mem_append.1 hf with hf | hf
    · exact h.params f hf
    · obtain rfl := List.mem_singleton.1 hf
      exact nodup_of_checkParams hparams
  · rcases List.mem_append.1 hf with hf | hf
    · exact h.grammar f hf
    · obtain rfl := List.mem_singleton.1 hf
      rintro b rfl
      obtain ⟨g, hg⟩ := ofSyntax_of_checkGrammar hgrammar
      exact GrammarBuilder.checked_ofSyntax hg
  · exact nodup_map_concat h.nodup (checkFresh_eq_ok hfresh).2
  · obtain ⟨names, hnames, hc⟩ := h.constraint c hc
    exact ⟨names, hnames, hc.mono (fun _ hd => hd) fun _ => List.mem_append_left _⟩

theorem predicate_eq_ok {name : String} {expected : List Ty} {d : FunDef}
    (h : p.predicate name expected = .ok d) :
    d ∈ p.defs ∧ d.name = name ∧ d.ret = .bool ∧ d.params.map (·.ty) = expected := by
  unfold predicate at h
  split at h
  next => cases h
  next d' hd =>
    have hname : d'.name = name := by simpa using List.find?_some hd
    have hmem := List.mem_reverse.1 (List.mem_of_find?_eq_some hd)
    dsimp only at h
    split at h
    next => cases h
    next hret =>
      split at h
      next => cases h
      next htys =>
        obtain rfl := Except.ok.inj h
        exact ⟨hmem, hname, not_not.1 hret, not_not.1 htys⟩

/-- A constraint that is accepted is about predicates of the right sorts. -/
theorem constrain_eq_ok {inv pre trans post : String}
    (hc : p.constrain inv pre trans post = .ok p') :
    ∃ f dpre dtrans dpost, p.synthFun? inv = some f ∧ primedClash? f.params = none ∧
      p.predicate pre (f.params.map (·.ty)) = .ok dpre ∧
      p.predicate trans (f.params.map (·.ty) ++ f.params.map (·.ty)) = .ok dtrans ∧
      p.predicate post (f.params.map (·.ty)) = .ok dpost ∧
      p' = { p with constraint := some ⟨f, dpre, dtrans, dpost⟩ } := by
  unfold SynthProblem.constrain at hc
  cases hsome : p.constraint.isSome with
  | true =>
    rw [hsome] at hc
    cases hc
  | false =>
    rw [hsome] at hc
    cases hf : p.synthFun? inv with
    | none =>
      rw [hf] at hc
      cases hc
    | some f =>
      rw [hf] at hc
      dsimp only at hc
      cases hclash : primedClash? f.params with
      | some x =>
        rw [hclash] at hc
        cases hc
      | none =>
        rw [hclash] at hc
        obtain ⟨dpre, hpre, hc⟩ := bind_eq_ok_iff.1 hc
        obtain ⟨dtrans, htrans, hc⟩ := bind_eq_ok_iff.1 hc
        obtain ⟨dpost, hpost, hc⟩ := bind_eq_ok_iff.1 hc
        exact ⟨f, dpre, dtrans, dpost, rfl, hclash, hpre, htrans, hpost, (Except.ok.inj hc).symm⟩

theorem Checked.constrain (h : p.Checked given) {inv pre trans post : String}
    (hc : p.constrain inv pre trans post = .ok p') :
    p'.Checked { given with constraint := some ⟨inv, pre, trans, post⟩ } := by
  obtain ⟨f, dpre, dtrans, dpost, hf, hclash, hpre, htrans, hpost, rfl⟩ := constrain_eq_ok hc
  obtain ⟨hpreMem, rfl, -, hpreTys⟩ := predicate_eq_ok hpre
  obtain ⟨htransMem, rfl, -, htransTys⟩ := predicate_eq_ok htrans
  obtain ⟨hpostMem, rfl, hret, hpostTys⟩ := predicate_eq_ok hpost
  obtain rfl : f.name = inv := by simpa using List.find?_some hf
  refine ⟨h.defs, h.params, h.grammar, h.nodup, fun c hc => ⟨_, rfl, ?_⟩⟩
  obtain rfl := Option.some.inj hc
  exact ⟨List.mem_of_find?_eq_some hf, hpreMem, htransMem, hpostMem, rfl, hclash, hpreTys,
    htransTys, hpostTys, hret⟩

/-- A request to solve a problem changes no more than the solutions. -/
theorem solve_eq_ok {oracle : Oracle σ} {steps : Nat} {config : SearchConfig} {q q' : σ}
    {r : SynthResult} (hs : p.solve oracle steps config q = .ok (some (r, p', q'))) :
    ∃ c s solutions, p.constraint = some c ∧
      (Search.new c.system (c.inv.grammarWith p.logic c.system.constants) config).run oracle steps
        q = some (s, q') ∧
      p.conclude steps c s.state = some (r.outcome, solutions) ∧ p' = { p with solutions } := by
  unfold SynthProblem.solve at hs
  split at hs
  next => cases hs
  next c hc =>
    obtain ⟨⟨s, q₁⟩, hrun, hs⟩ := Option.bind_eq_some_iff.1 (Except.ok.inj hs)
    obtain ⟨⟨outcome, solutions⟩, hconclude, hs⟩ := Option.bind_eq_some_iff.1 hs
    obtain ⟨rfl, rfl, rfl⟩ : _ ∧ _ ∧ _ := by simpa using hs
    exact ⟨c, s, solutions, hc, hrun, hconclude, rfl⟩

theorem Checked.solve (h : p.Checked given) {τ : Type} {oracle : Oracle τ} {steps : Nat}
    {config : SearchConfig} {q q' : τ} {r : SynthResult}
    (hs : p.solve oracle steps config q = .ok (some (r, p', q'))) : p'.Checked given := by
  obtain ⟨c, s, solutions, -, -, -, rfl⟩ := solve_eq_ok hs
  refine ⟨h.defs, h.params, h.grammar, h.nodup, fun c hc => ?_⟩
  obtain ⟨names, hnames, hc⟩ := h.constraint c hc
  exact ⟨names, hnames, hc.mono (fun _ hd => hd) fun _ hf => hf⟩

/-- Every problem that is stated is checked. -/
theorem Stated.checked {options : ProblemOptions} (h : Stated options given p) :
    p.Checked given := by
  induction h with
  | new h => exact checked_new h
  | define _ hd ih => exact ih.define hd
  | declare _ hd ih => exact ih.declare hd
  | constrain _ hc ih => exact ih.constrain hc
  | solve _ hs ih => exact ih.solve hs

/-! ## Solutions -/

/-- The candidates of a checked problem are formulas over the parameters. -/
theorem Checked.sorted_grammarWith (h : p.Checked given) {f : SynthFun} (hf : f ∈ p.synthFuns)
    (logic : Logic) (constants : List Int64) :
    (f.grammarWith logic constants).Sorted (.ofBinders f.params) := by
  unfold SynthFun.grammarWith
  split
  next b hb => exact (h.grammar f hf b hb).sorted_finish (h.params f hf) constants
  next => exact Grammar.sorted_standard (h.params f hf) logic constants

theorem Relates.checked (hc : p.Relates names c) (h : p.Checked given) : c.Checked where
  nodup := h.params _ hc.inv
  clash := hc.clash
  pre := h.defs.closed _ hc.pre
  trans := h.defs.closed _ hc.trans
  post := h.defs.closed _ hc.post
  preTys := hc.preTys
  transTys := hc.transTys
  postTys := hc.postTys
  postRet := hc.postRet

/-- A complete solution defines the constrained predicate once, by what was found. -/
theorem Relates.mem_complete (hc : p.Relates names c) (h : p.Checked given) {ticks : Nat} {t : Term}
    {defs : List FunDef} (hdefs : p.complete ticks c t = some defs) :
    c.inv.defineAs t ∈ defs ∧ ∀ d ∈ defs, d.name = c.inv.name → d = c.inv.defineAs t := by
  have hforall := mapM_eq_some_iff.1 hdefs
  constructor
  · obtain ⟨d, hd, heq⟩ := exists_mem_of_forall₂ hforall hc.inv
    rw [if_pos rfl] at heq
    rwa [Option.some.inj heq]
  · intro d hd hname
    obtain ⟨f, hf, heq⟩ := exists_mem_of_forall₂ hforall.flip hd
    by_cases hfname : f.name = c.inv.name
    · rw [if_pos hfname] at heq
      obtain rfl := List.inj_on_of_nodup_map h.nodup hf hc.inv hfname
      exact (Option.some.inj heq).symm
    · rw [if_neg hfname] at heq
      obtain ⟨u, -, rfl⟩ := Option.map_eq_some_iff.1 heq
      exact absurd hname hfname

/-- A problem is solved only if an invariant was found. -/
theorem conclude_eq_hasSolution {ticks : Nat} {state : SearchState}
    {solutions : Option (List FunDef)}
    (h : p.conclude ticks c state = some (.hasSolution, solutions)) :
    ∃ t defs, state = .found t ∧ p.complete ticks c t = some defs ∧ solutions = some defs := by
  cases state with
  | found t =>
    obtain ⟨defs, hdefs, heq⟩ := Option.map_eq_some_iff.1 h
    exact ⟨t, defs, rfl, hdefs, (Prod.mk.inj heq).2.symm⟩
  | searching | exhausted | unknown | timeout => simp [conclude] at h

/-- Let a problem be stated, and solved with a sound oracle. The solution defines the constrained
predicate, and on every run of states from the precondition along transitions this holds in all
states and the postcondition at the end. Precondition, transitions and postcondition are the
definitions as they were given, each of which may call those before it. -/
theorem solve_sound {options : ProblemOptions} (h : Stated options given p) {oracle : Oracle σ}
    (sound : oracle.Sound) {steps : Nat} {config : SearchConfig} {q q' : σ} {r : SynthResult}
    (hsolve : p.solve oracle steps config q = .ok (some (r, p', q')))
    (hsolution : r.outcome = .hasSolution) :
    ∃ names defs inv, given.constraint = some names ∧ p'.solution = .ok defs ∧ inv ∈ defs ∧
      inv.name = names.inv ∧ (∀ d ∈ defs, d.name = names.inv → d = inv) ∧
      ∀ (states : Nat → List Datum) (n : Nat),
        Interpretation.ofDefs given.defs names.pre (states 0) = some (.bool true) →
        (∀ i < n, Interpretation.ofDefs given.defs names.trans (states i ++ states (i + 1)) =
          some (.bool true)) →
        (∀ i ≤ n, inv.meaning .empty (states i) = some (.bool true)) ∧
          Interpretation.ofDefs given.defs names.post (states n) = some (.bool true) := by
  have hchecked := h.checked
  obtain ⟨c, s, solutions, hc, hrun, hconclude, rfl⟩ := solve_eq_ok hsolve
  rw [hsolution] at hconclude
  obtain ⟨t, defs, hfound, hdefs, rfl⟩ := conclude_eq_hasSolution hconclude
  obtain ⟨names, hnames, hrelates⟩ := hchecked.constraint c hc
  obtain ⟨hmem, hunique⟩ := hrelates.mem_complete hchecked hdefs
  obtain ⟨⟨size, hderives⟩, hanswers⟩ := ((Search.Reachable.new q).run hrun).1.found hfound
  have ht := (hchecked.sorted_grammarWith hrelates.inv _ _).hasTy_start hderives
  obtain rfl := hrelates.names_eq
  refine ⟨_, defs, c.inv.defineAs t, hnames, rfl, hmem, rfl, hunique, ?_⟩
  intro states n hpre htrans
  rw [hchecked.defs.value _ hrelates.pre] at hpre
  rw [hchecked.defs.value _ hrelates.trans] at htrans
  rw [hchecked.defs.value _ hrelates.post]
  exact (hrelates.checked hchecked).invariant ht (fun d hd => sound d (hanswers d hd)) states n
    hpre htrans

/-- A counter that begins at zero and is counted up, with a postcondition that is always true. The
precondition calls an earlier definition. -/
def counterDefs : List FunDef :=
  [⟨"zero", [⟨"x", .int⟩], .bool, .equals (.id "x") (.int 0)⟩,
    ⟨"pre", [⟨"x", .int⟩], .bool, .app "zero" [.id "x"]⟩,
    ⟨"trans", [⟨"x", .int⟩, ⟨"y", .int⟩], .bool,
      .equals (.id "y") (.arith .add (.id "x") (.int 1))⟩,
    ⟨"post", [⟨"x", .int⟩], .bool, .bool true⟩]

/-- The constraint on the counter, where the call is replaced. -/
def counterConstraint : InvConstraint where
  inv := ⟨"inv", [⟨"x", .int⟩], some ⟨[⟨"x", .int⟩], .lia,
    [(⟨"B", .bool⟩, [.term (.bool true), .term (.compare .ge (.id "x") (.int 0))])]⟩⟩
  pre := ⟨"pre", [⟨"x", .int⟩], .bool, .equals (.id "x") (.int 0)⟩
  trans := ⟨"trans", [⟨"x", .int⟩, ⟨"y", .int⟩], .bool,
    .equals (.id "y") (.arith .add (.id "x") (.int 1))⟩
  post := ⟨"post", [⟨"x", .int⟩], .bool, .bool true⟩

/-- The problem of the counter. -/
def counter : SynthProblem where
  logic := .lia
  defs := [⟨"zero", [⟨"x", .int⟩], .bool, .equals (.id "x") (.int 0)⟩, counterConstraint.pre,
    counterConstraint.trans, counterConstraint.post]
  synthFuns := [counterConstraint.inv]
  constraint := some counterConstraint
  solutions := none

theorem stated_counter :
    Stated .default ⟨counterDefs, some ⟨"inv", "pre", "trans", "post"⟩⟩ counter := by
  have hnew : Stated .default ⟨[], none⟩ ⟨.lia, [], [], none, none⟩ := .new rfl
  have hzero := hnew.define (d := counterDefs[0]) rfl
  have hpre := hzero.define (d := counterDefs[1]) rfl
  have htrans := hpre.define (d := counterDefs[2]) rfl
  have hpost := htrans.define (d := counterDefs[3]) rfl
  have hinv : Stated .default ⟨counterDefs, none⟩ { counter with constraint := none } :=
    hpost.declare (show declare _ "inv" [⟨"x", .int⟩] .bool
      (some [⟨"B", .bool, [.term (.bool true), .term (.compare .ge (.id "x") (.int 0))]⟩]) =
        .ok _ from rfl)
  exact hinv.constrain (show constrain _ "inv" "pre" "trans" "post" = .ok _ from rfl)

/-- The search for an invariant of the counter finds its first candidate. -/
theorem run_counter : ∃ s,
    (Search.new counterConstraint.system (single [.bool true, .compare .ge (.id "x") (.int 0)])
      ⟨none, none, none, false⟩).run .trivial 2 () = some (s, ()) ∧
    s.state = .found (.bool true) := by
  have hfirst := Enumerator.next_new (g := single [.bool true, .compare .ge (.id "x") (.int 0)])
    none (r := ⟨.bool true, [], 1⟩) rfl rfl rfl (by decide +kernel) 0
  obtain ⟨s, hstep, hstate⟩ : ∃ s,
      (Search.new counterConstraint.system (single [.bool true, .compare .ge (.id "x") (.int 0)])
        ⟨none, none, none, false⟩).step .trivial 1 () = some (s, ()) ∧
      s.state = .found (.bool true) :=
    ⟨_, Search.step_of_next rfl rfl .trivial hfirst (), by decide +kernel⟩
  exact ⟨s, (Search.run_of_step rfl hstep).trans (Search.run_of_final (by simp [hstate]) 0 ()),
    hstate⟩

/-- A problem with the constraint on the counter is solved as soon as its other predicates have
first terms. -/
theorem solve_of_counterConstraint (hlogic : p.logic = .lia)
    (hconstraint : p.constraint = some counterConstraint) {defs : List FunDef}
    (hdefs : p.complete 2 counterConstraint (.bool true) = some defs) : ∃ r,
    p.solve .trivial 2 ⟨none, none, none, false⟩ () =
      .ok (some (r, { p with solutions := some defs }, ())) ∧ r.outcome = .hasSolution := by
  obtain ⟨s, hrun, hstate⟩ := run_counter
  obtain ⟨logic, _, _, constraint, _⟩ := p
  obtain rfl : logic = .lia := hlogic
  obtain rfl : constraint = some counterConstraint := hconstraint
  refine ⟨⟨.hasSolution, s.stats⟩, ?_, rfl⟩
  show Except.ok (((Search.new counterConstraint.system
    (single [.bool true, .compare .ge (.id "x") (.int 0)]) _).run .trivial 2 ()).bind _) = _
  rw [hrun]
  show Except.ok ((conclude 2 _ counterConstraint s.state).bind _) = _
  rw [hstate, conclude, hdefs]
  rfl

/-- The counter is solved at its first candidate, and the solution holds after one step. -/
theorem solve_sound_counter : ∃ r p',
    counter.solve .trivial 2 ⟨none, none, none, false⟩ () = .ok (some (r, p', ())) ∧
    r.outcome = .hasSolution ∧ ∃ defs, p'.solution = .ok defs ∧ ∃ inv ∈ defs, inv.name = "inv" ∧
      inv.meaning .empty [.int 1] = some (.bool true) := by
  obtain ⟨r, hsolve, hr⟩ := solve_of_counterConstraint rfl rfl
    (show counter.complete 2 counterConstraint (.bool true) =
      some [counterConstraint.inv.defineAs (.bool true)] from rfl)
  obtain ⟨names, defs, inv, hnames, hdefs, hmem, hname, -, hrun⟩ :=
    solve_sound stated_counter Oracle.sound_trivial hsolve hr
  obtain rfl := Option.some.inj hnames
  refine ⟨r, _, hsolve, hr, defs, hdefs, inv, hmem, hname, ?_⟩
  refine (hrun (fun i => [.int i]) 1 (by decide) fun i hi => ?_).1 1 (Nat.le_refl 1)
  obtain rfl : i = 0 := by omega
  decide

end SynthProblem

end InvariantSearch
