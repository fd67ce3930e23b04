import InvariantSearch.Proofs.Returning

/-!
# The order of declarations

A declaration takes up what the problem says at that moment: a definition gets its calls replaced by
the definitions so far, and a constraint gets copies of the definitions it names. Still two problems
with the same declarations in another order agree, since what a declaration adds does not depend on
more definitions than it mentions (`Implements.inline_congr`). More generally, if all declarations
of one problem are among those of another then the other one has all that the first has
(`Declared.extends_of_subset`). So further definitions, and further functions to synthesize, change
nothing for a search, and solving the two problems comes to the same (`Declared.returns_perm`).
-/

namespace InvariantSearch

namespace SynthProblem

variable {options : ProblemOptions} {p p' p₁ : SynthProblem}

/-! ## Declarations -/

/-- A declaration in the statement of a problem. -/
inductive Declaration where
  | define (d : FunDef)
  | declare (name : String) (params : List Binder) (ret : Ty) (grammar : Option GrammarSyntax)
  | constrain (inv pre trans post : String)
  deriving DecidableEq

namespace Declaration

/-- The request that makes the declaration. -/
def act : Declaration → RequestM Unit
  | define d => .define d
  | declare name params ret grammar => .declare name params ret grammar
  | constrain inv pre next post => .constrain inv pre next post

/-- What the request comes to. -/
def addTo (p : SynthProblem) : Declaration → Except SynthesisError SynthProblem
  | define d => p.define d
  | declare name params ret grammar => p.declare name params ret grammar
  | constrain inv pre next post => p.constrain inv pre next post

/-- The declaration is a constraint. -/
def IsConstraint : Declaration → Prop
  | constrain .. => True
  | define _ | declare .. => False

/-- The request is refused and changes nothing, or makes the declaration. -/
theorem runOn_act (p : SynthProblem) (d : Declaration) :
    d.act.runOn p = some (p.settle (d.addTo p)) := by
  cases d with
  | define d => exact p.runOn_define d
  | declare name params ret grammar => exact p.runOn_declare name params ret grammar
  | constrain inv pre next post => exact p.runOn_constrain inv pre next post

theorem addTo_of_act {d : Declaration} (h : d.act.runOn p = some (.ok (), p')) :
    d.addTo p = .ok p' := by
  rw [runOn_act] at h
  cases hadd : d.addTo p with
  | ok p₁ =>
    rw [hadd] at h
    exact congrArg Except.ok (Prod.mk.inj (Option.some.inj h)).2
  | error e =>
    rw [hadd] at h
    cases (Prod.mk.inj (Option.some.inj h)).1

end Declaration

/-- The problems that are stated by declarations one after the other, of which none is refused. -/
inductive Declared (options : ProblemOptions) : List Declaration → SynthProblem → Prop
  | nil {p : SynthProblem} (h : SynthProblem.new options = .ok p) : Declared options [] p
  | snoc {ds : List Declaration} {d : Declaration} {p p' : SynthProblem} (h : Declared options ds p)
      (hd : d.act.runOn p = some (.ok (), p')) : Declared options (ds ++ [d]) p'

/-! ## What declarations add -/

/-- The second problem has all that the first one has, and maybe more. -/
structure Extends (p p' : SynthProblem) : Prop where
  logic : p'.logic = p.logic
  defs : p.defs ⊆ p'.defs
  synthFuns : p.synthFuns ⊆ p'.synthFuns
  constraint : ∀ c, p.constraint = some c → p'.constraint = some c

theorem Extends.refl (p : SynthProblem) : p.Extends p :=
  ⟨rfl, fun _ => id, fun _ => id, fun _ => id⟩

theorem Extends.trans {p'' : SynthProblem} (h : p.Extends p') (h' : p'.Extends p'') :
    p.Extends p'' :=
  ⟨h'.logic.trans h.logic, fun _ hd => h'.defs (h.defs hd),
    fun _ hf => h'.synthFuns (h.synthFuns hf), fun c hc => h'.constraint c (h.constraint c hc)⟩

theorem constraint_eq_none_of_constrain {inv pre trans post : String}
    (h : p.constrain inv pre trans post = .ok p') : p.constraint = none := by
  unfold SynthProblem.constrain at h
  cases hc : p.constraint with
  | none => rfl
  | some c =>
    rw [hc] at h
    cases h

/-- A declaration only adds to a problem. -/
theorem Declaration.extends_of_addTo {d : Declaration} (h : d.addTo p = .ok p') :
    p.Extends p' := by
  cases d with
  | define d =>
    obtain ⟨-, -, -, -, rfl⟩ := define_eq_ok h
    exact { Extends.refl p with defs := List.subset_append_left _ _ }
  | declare name params ret grammar =>
    obtain ⟨b?, -, -, -, -, rfl⟩ := declare_eq_ok h
    exact { Extends.refl p with synthFuns := List.subset_append_left _ _ }
  | constrain inv pre next post =>
    have hnone := constraint_eq_none_of_constrain h
    obtain ⟨f, dpre, dtrans, dpost, -, -, -, -, -, rfl⟩ := constrain_eq_ok h
    exact { Extends.refl p with constraint := fun c hc => by simp [hnone] at hc }

/-! ## Declarations in another order -/

namespace Declaration

variable {given given₀ given' : Given} {p₀ : SynthProblem}

/-- Let a problem have all of the problem after a declaration, and all of a second one. If the
declaration is added to the second one then the problem still has all of it. -/
theorem extends_of_added (h : Stated options given p) (h₀ : Stated options given₀ p₀)
    (h' : Stated options given' p') {d : Declaration} {q q₀ : SynthProblem}
    (hadd : d.addTo p = .ok q) (hadd₀ : d.addTo p₀ = .ok q₀) (hext : p.Extends p')
    (hext₀ : q₀.Extends p') : q.Extends p' := by
  have hchecked := h'.checked
  have hbefore := (extends_of_addTo hadd₀).trans hext₀
  cases d with
  | define d =>
    obtain ⟨-, -, hcheck, -, rfl⟩ := define_eq_ok hadd
    obtain ⟨-, -, hcheck₀, -, rfl⟩ := define_eq_ok hadd₀
    have hbody : d.body.inline p.defs = d.body.inline p'.defs :=
      h.checked.defs.inline_congr hchecked.defs hext.defs (hasTy_of_check hcheck)
    have hbody₀ : d.body.inline p₀.defs = d.body.inline p'.defs :=
      h₀.checked.defs.inline_congr hchecked.defs hbefore.defs (hasTy_of_check hcheck₀)
    have hsame : d.inline p.defs = d.inline p₀.defs := by
      rw [FunDef.inline, FunDef.inline, hbody, hbody₀]
    refine { hext with defs := List.append_subset.2 ⟨hext.defs, ?_⟩ }
    rw [hsame]
    exact fun _ hd => hext₀.defs (List.mem_append_right _ hd)
  | declare name params ret grammar =>
    obtain ⟨b?, hgrammar, -, -, -, rfl⟩ := declare_eq_ok hadd
    obtain ⟨b₀?, hgrammar₀, -, -, -, rfl⟩ := declare_eq_ok hadd₀
    have hlogic : p.logic = p₀.logic := hext.logic.symm.trans hbefore.logic
    have hcheck : p.checkGrammar params = p₀.checkGrammar params := by
      funext grammar
      rw [checkGrammar, checkGrammar, hlogic]
    rw [hcheck, hgrammar₀] at hgrammar
    obtain rfl := Except.ok.inj hgrammar
    refine { hext with synthFuns := List.append_subset.2 ⟨hext.synthFuns, fun _ hf => ?_⟩ }
    exact hext₀.synthFuns (List.mem_append_right _ hf)
  | constrain inv pre next post =>
    obtain ⟨f, dpre, dtrans, dpost, hf, -, hpre, htrans, hpost, rfl⟩ := constrain_eq_ok hadd
    obtain ⟨f₀, dpre₀, dtrans₀, dpost₀, hf₀, -, hpre₀, htrans₀, hpost₀, rfl⟩ :=
      constrain_eq_ok hadd₀
    have hfun : f = f₀ := by
      have hname : f.name = inv := by simpa using List.find?_some hf
      have hname₀ : f₀.name = inv := by simpa using List.find?_some hf₀
      exact List.inj_on_of_nodup_map hchecked.nodup (hext.synthFuns (List.mem_of_find?_eq_some hf))
        (hbefore.synthFuns (List.mem_of_find?_eq_some hf₀)) (hname.trans hname₀.symm)
    have hpredicate {name : String} {tys tys₀ : List Ty} {d d₀ : FunDef}
        (hd : p.predicate name tys = .ok d) (hd₀ : p₀.predicate name tys₀ = .ok d₀) : d = d₀ := by
      obtain ⟨hmem, hname, -⟩ := predicate_eq_ok hd
      obtain ⟨hmem₀, hname₀, -⟩ := predicate_eq_ok hd₀
      exact hchecked.defs.eq_of_name (hext.defs hmem) (hbefore.defs hmem₀)
        (hname.trans hname₀.symm)
    obtain rfl := hfun
    obtain rfl := hpredicate hpre hpre₀
    obtain rfl := hpredicate htrans htrans₀
    obtain rfl := hpredicate hpost hpost₀
    exact { hext with constraint := hext₀.constraint }

end Declaration

namespace Declared

variable {ds ds' : List Declaration}

theorem stated (h : Declared options ds p) : ∃ given, Stated options given p := by
  induction h with
  | nil h => exact ⟨_, .new h⟩
  | @snoc ds d p p' _ hd ih =>
    obtain ⟨given, h⟩ := ih
    have hadd := Declaration.addTo_of_act hd
    cases d with
    | define d => exact ⟨_, h.define hadd⟩
    | declare name params ret grammar => exact ⟨_, h.declare hadd⟩
    | constrain inv pre next post => exact ⟨_, h.constrain hadd⟩

/-- What a problem was before one of its declarations, and after it. -/
theorem exists_added (h : Declared options ds p) {d : Declaration} (hd : d ∈ ds) :
    ∃ ds₀ p₀ p₁, Declared options ds₀ p₀ ∧ d.addTo p₀ = .ok p₁ ∧ p₁.Extends p := by
  induction h with
  | nil => simp at hd
  | @snoc ds d' p p' h hd' ih =>
    have hadd := Declaration.addTo_of_act hd'
    rcases List.mem_append.1 hd with hd | hd
    · obtain ⟨ds₀, p₀, p₁, h₀, hadd₀, hext⟩ := ih hd
      exact ⟨ds₀, p₀, p₁, h₀, hadd₀, hext.trans (Declaration.extends_of_addTo hadd)⟩
    · obtain rfl := List.mem_singleton.1 hd
      exact ⟨ds, p, p', h, hadd, .refl p'⟩

theorem logic_eq (h : Declared options ds p) : p.logic = options.logic := by
  induction h with
  | nil h => rw [new_eq_ok h]
  | snoc _ hd ih =>
    exact (Declaration.extends_of_addTo (Declaration.addTo_of_act hd)).logic.trans ih

/-- A problem has all of one that is stated by some of its declarations. -/
theorem extends_of_subset (h : Declared options ds p) (h' : Declared options ds' p')
    (hsub : ds ⊆ ds') : p.Extends p' := by
  induction h with
  | nil h =>
    have hlogic := h'.logic_eq
    obtain rfl := new_eq_ok h
    exact ⟨hlogic, List.nil_subset _, List.nil_subset _, by simp⟩
  | @snoc ds d p q h hd ih =>
    have hmem : d ∈ ds' := hsub (List.mem_append_right _ (List.mem_singleton_self d))
    obtain ⟨ds₀, p₀, q₀, h₀, hadd₀, hext₀⟩ := h'.exists_added hmem
    obtain ⟨given, hstated⟩ := h.stated
    obtain ⟨given₀, hstated₀⟩ := h₀.stated
    obtain ⟨given', hstated'⟩ := h'.stated
    exact Declaration.extends_of_added hstated hstated₀ hstated' (Declaration.addTo_of_act hd)
      hadd₀ (ih fun _ hd => hsub (List.mem_append_left _ hd)) hext₀

/-- A problem has no constraint if and only if none was declared. -/
theorem constraint_eq_none_iff (h : Declared options ds p) :
    p.constraint = none ↔ ∀ d ∈ ds, ¬d.IsConstraint := by
  constructor
  · intro hnone d hd hconstraint
    obtain ⟨ds₀, p₀, p₁, -, hadd, hext⟩ := h.exists_added hd
    cases d with
    | define | declare => exact hconstraint
    | constrain inv pre next post =>
      obtain ⟨f, dpre, dtrans, dpost, -, -, -, -, -, rfl⟩ := constrain_eq_ok hadd
      simp [hext.constraint _ rfl] at hnone
  · intro hds
    induction h with
    | nil h => rw [new_eq_ok h]
    | @snoc ds d p p' h hd ih =>
      have hadd := Declaration.addTo_of_act hd
      have hnone := ih fun d hd => hds d (List.mem_append_left _ hd)
      cases d with
      | define d =>
        obtain ⟨-, -, -, -, rfl⟩ := define_eq_ok hadd
        exact hnone
      | declare name params ret grammar =>
        obtain ⟨b?, -, -, -, -, rfl⟩ := declare_eq_ok hadd
        exact hnone
      | constrain inv pre next post =>
        exact absurd trivial (hds (.constrain inv pre next post) (by simp) : ¬True)

theorem exists_synthFun (h : Declared options ds p) {name : String} {params : List Binder}
    {ret : Ty} {grammar : Option GrammarSyntax} (hd : .declare name params ret grammar ∈ ds) :
    ∃ f ∈ p.synthFuns, f.name = name := by
  obtain ⟨ds₀, p₀, p₁, -, hadd, hext⟩ := h.exists_added hd
  obtain ⟨b?, -, -, -, -, rfl⟩ := declare_eq_ok hadd
  exact ⟨⟨name, params, b?⟩, hext.synthFuns (by simp), rfl⟩

end Declared

/-! ## Solving -/

/-- The same search has the same conclusions in both problems, with the same definitions of the
functions that both have. -/
theorem Extends.conclude_congr {given given' : Given} {c : InvConstraint} (hext : p.Extends p')
    (h : p.Checked given) (h' : p'.Checked given') {ticks : Nat} {state : SearchState}
    {outcome outcome' : SynthOutcome} {solutions solutions' : Option (List FunDef)}
    (hr : p.conclude ticks c state = some (outcome, solutions))
    (hr' : p'.conclude ticks c state = some (outcome', solutions')) :
    outcome' = outcome ∧ ∀ f ∈ p.synthFuns,
      { p' with solutions := solutions' }.solution.map (findDef? · f.name) =
        { p with solutions }.solution.map (findDef? · f.name) := by
  cases state with
  | found t =>
    obtain ⟨defs, hdefs, hended⟩ := Option.map_eq_some_iff.1 hr
    obtain ⟨defs', hdefs', hended'⟩ := Option.map_eq_some_iff.1 hr'
    obtain ⟨rfl, rfl⟩ := Prod.mk.inj hended
    obtain ⟨rfl, rfl⟩ := Prod.mk.inj hended'
    refine ⟨rfl, fun f hf => ?_⟩
    have hsame : p'.completion ticks c t f = p.completion ticks c t f := by
      rw [completion, completion, hext.logic]
    have hfound := findDef?_complete h.nodup hdefs hf
    have hfound' := findDef?_complete h'.nodup hdefs' (hext.synthFuns hf)
    exact congrArg Except.ok (hfound'.trans (hsame.trans hfound.symm))
  | searching => cases hr
  | exhausted | unknown | timeout =>
    obtain ⟨rfl, rfl⟩ := Prod.mk.inj (Option.some.inj hr)
    obtain ⟨rfl, rfl⟩ := Prod.mk.inj (Option.some.inj hr')
    exact ⟨rfl, fun _ _ => rfl⟩

/-- Let a problem be stated by declarations of which none is refused, and another one by the same
declarations in any order, maybe with further definitions and further functions to synthesize among
them. With an oracle that is a function of the condition and without a limit on time, a request to
solve the one returns if and only if one to solve the other returns. Then both give the same result,
and the same definition for every function to synthesize that both declare. -/
theorem Declared.returns_perm {ds ds' extra : List Declaration} (h : Declared options ds p)
    (h' : Declared options ds' p') (hperm : ds'.Perm (ds ++ extra))
    (hextra : ∀ d ∈ extra, ¬d.IsConstraint) (decide : Condition → Decision)
    (maxIterations maxSize : Option Nat) (parallel : Bool) :
    ((∃ result q, p.Returns decide ⟨maxIterations, none, maxSize, parallel⟩ result q) ↔
      ∃ result q, p'.Returns decide ⟨maxIterations, none, maxSize, parallel⟩ result q) ∧
    ∀ result result' q q',
      p.Returns decide ⟨maxIterations, none, maxSize, parallel⟩ result q →
      p'.Returns decide ⟨maxIterations, none, maxSize, parallel⟩ result' q' →
      result' = result ∧ ∀ name params ret grammar, .declare name params ret grammar ∈ ds →
        q'.solution.map (findDef? · name) = q.solution.map (findDef? · name) := by
  have hext : p.Extends p' := h.extends_of_subset h' fun d hd =>
    hperm.mem_iff.2 (List.mem_append_left _ hd)
  obtain ⟨given, hstated⟩ := h.stated
  obtain ⟨given', hstated'⟩ := h'.stated
  cases hc : p.constraint with
  | none =>
    have hc' : p'.constraint = none := by
      refine h'.constraint_eq_none_iff.2 fun d hd => ?_
      rcases List.mem_append.1 (hperm.mem_iff.1 hd) with hd | hd
      · exact h.constraint_eq_none_iff.1 hc d hd
      · exact hextra d hd
    simp only [hstated.returns_iff_of_unconstrained hc, hstated'.returns_iff_of_unconstrained hc']
    refine ⟨⟨fun _ => ⟨_, _, rfl, rfl⟩, fun _ => ⟨_, _, rfl, rfl⟩⟩, ?_⟩
    rintro _ _ _ _ ⟨rfl, rfl⟩ ⟨rfl, rfl⟩
    refine ⟨rfl, fun _ _ _ _ _ => ?_⟩
    rw [solution, solution, hstated.prepared.unsolved hc, hstated'.prepared.unsolved hc']
  | some c =>
    have hc' := hext.constraint c hc
    refine ⟨?_, fun result result' q q' hreturns hreturns' => ?_⟩
    · rw [hstated.exists_returns_iff hc, hstated'.exists_returns_iff hc', hext.logic]
    · rw [hstated.returns_iff hc] at hreturns
      rw [hstated'.returns_iff hc', hext.logic] at hreturns'
      obtain ⟨steps, s, outcome, solutions, hrun, hconclude, rfl, rfl⟩ := hreturns
      obtain ⟨steps', s', outcome', solutions', hrun', hconclude', rfl, rfl⟩ := hreturns'
      -- With as many steps as either took, both searches are the same.
      have hle : steps ≤ max steps steps' := le_max_left _ _
      have hle' : steps' ≤ max steps steps' := le_max_right _ _
      obtain rfl : s' = s := by
        have hsame := (Search.run_mono hle' hrun').symm.trans (Search.run_mono hle hrun)
        exact (Prod.mk.inj (Option.some.inj hsame)).1
      obtain ⟨rfl, hsolutions⟩ := hext.conclude_congr hstated.checked hstated'.checked
        (conclude_mono hle hconclude) (conclude_mono hle' hconclude')
      refine ⟨rfl, fun name params ret grammar hd => ?_⟩
      obtain ⟨f, hf, rfl⟩ := h.exists_synthFun hd
      exact hsolutions f hf

/-- The predicate of the counter. -/
def invDeclaration : Declaration := .declare "inv" [⟨"x", .int⟩] .bool
  (some [⟨"B", .bool, [.term (.bool true), .term (.compare .ge (.id "x") (.int 0))]⟩])

/-- The declarations of the counter. -/
def counterDeclarations : List Declaration :=
  counterDefs.map .define ++ [invDeclaration, .constrain "inv" "pre" "trans" "post"]

/-- Another predicate, whose grammar derives nothing, and another definition. -/
def furtherDeclarations : List Declaration :=
  [.declare "f" [] .bool (some [⟨"B", .bool, [.term (.unary .not (.id "B"))]⟩]),
    .define ⟨"never", [], .bool, .bool false⟩]

/-- The same declarations in another order, with the further ones among them. -/
def mixedDeclarations : List Declaration :=
  [furtherDeclarations[0], invDeclaration, .define counterDefs[0], .define counterDefs[3],
    .define counterDefs[2], .define counterDefs[1], .constrain "inv" "pre" "trans" "post",
    furtherDeclarations[1]]

theorem declared_counter : Declared .default counterDeclarations counter := by
  have hnew : Declared .default [] ⟨.lia, [], [], none, none⟩ := .nil rfl
  have hzero := hnew.snoc (d := .define counterDefs[0]) rfl
  have hpre := hzero.snoc (d := .define counterDefs[1]) rfl
  have htrans := hpre.snoc (d := .define counterDefs[2]) rfl
  have hpost := htrans.snoc (d := .define counterDefs[3]) rfl
  have hinv := hpost.snoc (d := invDeclaration) rfl
  exact hinv.snoc (d := .constrain "inv" "pre" "trans" "post") rfl

theorem declared_mixed : ∃ p, Declared .default mixedDeclarations p := by
  have hnew : Declared .default [] ⟨.lia, [], [], none, none⟩ := .nil rfl
  have hempty := hnew.snoc (d := furtherDeclarations[0]) rfl
  have hinv := hempty.snoc (d := invDeclaration) rfl
  have hzero := hinv.snoc (d := .define counterDefs[0]) rfl
  have hpost := hzero.snoc (d := .define counterDefs[3]) rfl
  have htrans := hpost.snoc (d := .define counterDefs[2]) rfl
  have hpre := htrans.snoc (d := .define counterDefs[1]) rfl
  have hconstraint := hpre.snoc (d := .constrain "inv" "pre" "trans" "post") rfl
  exact ⟨_, hconstraint.snoc (d := furtherDeclarations[1]) rfl⟩

theorem perm_mixed :
    mixedDeclarations.Perm (counterDeclarations ++ furtherDeclarations) := by decide +kernel

/-- The counter is solved in the same way when its declarations are mixed with others. -/
theorem returns_perm_counter : ∃ decide p',
    Oracle.trivial = .ofFunction decide ∧ Declared .default mixedDeclarations p' ∧ ∃ r q',
      p'.Returns decide ⟨none, none, none, false⟩ (.ok r) q' ∧ r.outcome = .hasSolution ∧
      q'.solution.map (findDef? · "inv") =
        .ok (some (counterConstraint.inv.defineAs (.bool true))) := by
  obtain ⟨decide, hdecide⟩ : ∃ decide, Oracle.trivial = .ofFunction decide := ⟨_, rfl⟩
  obtain ⟨p', hmixed⟩ := declared_mixed
  have hextra : ∀ d ∈ furtherDeclarations, ¬d.IsConstraint := by
    simp [furtherDeclarations, Declaration.IsConstraint]
  obtain ⟨hreturns_iff, hsame⟩ :=
    declared_counter.returns_perm hmixed perm_mixed hextra decide none none false
  obtain ⟨r, hsolve, hr⟩ := solve_of_counterConstraint rfl rfl
    (show counter.complete 2 counterConstraint (.bool true) =
      some [counterConstraint.inv.defineAs (.bool true)] from rfl)
  have hreturns : counter.Returns decide ⟨none, none, none, false⟩ (.ok r) _ :=
    ⟨2, by rw [stated_counter.runOn_solve, ← hdecide, hsolve]; rfl⟩
  obtain ⟨result, q', hreturns'⟩ := hreturns_iff.1 ⟨_, _, hreturns⟩
  obtain ⟨rfl, hsolution⟩ := hsame _ _ _ _ hreturns hreturns'
  refine ⟨decide, p', hdecide, hmixed, r, q', hreturns', hr, ?_⟩
  exact hsolution "inv" _ _ _ (show invDeclaration ∈ counterDeclarations by decide +kernel)

end SynthProblem

end InvariantSearch
