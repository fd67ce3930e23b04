import InvariantSearch.Synthesis.Solve

/-!
# Requests

A problem is stated and solved by requests to it, each of which may be refused. A request acts on
the problem step by step (`RequestM`), so that what it changed before it is refused stays changed.
`SynthProblem.define` and the other functions on problems say what a request comes to.
-/

namespace InvariantSearch

/-- An action on a problem that may be refused, and then leaves the problem as it is at that moment.
It has no result if it takes more steps than allowed. -/
abbrev RequestM := ExceptT SynthesisError (StateT SynthProblem Option)

/-- The grammar of a predicate to synthesize, where the constants are those that a problem
mentions. A grammar of its own is built again, which may fail. -/
def SynthFun.buildGrammar (logic : Logic) (constants : List Int64) (f : SynthFun) :
    Except SynthesisError Grammar :=
  match f.grammar with
  | some b => (b.build constants).mapError (.badGrammar f.name)
  | none => .ok (.standard f.params logic constants)

namespace RequestM

variable {α σ : Type}

/-- Acts on a problem. The problem afterwards goes with the result, or with the reason why the
request is refused. -/
def runOn (p : SynthProblem) (r : RequestM α) : Option (Except SynthesisError α × SynthProblem) :=
  r.run.run p

/-- Adds a definition. -/
def define (d : FunDef) : RequestM Unit := do
  let p ← get
  ofExcept (p.checkFresh d.name)
  ofExcept (p.checkParams d.name d.params)
  ofExcept ((d.check p.signature).mapError (.illSorted d.name))
  ofExcept ((p.logic.admits d.body).mapError (.outsideLogic d.name))
  modify fun p => { p with defs := p.defs ++ [d.inline p.defs] }

/-- Adds a predicate to synthesize. -/
def declare (name : String) (params : List Binder) (ret : Ty) (grammar : Option GrammarSyntax) :
    RequestM Unit := do
  let p ← get
  let grammar ← ofExcept ((grammar.mapM (p.checkGrammar params)).mapError (.badGrammar name))
  ofExcept (p.checkFresh name)
  if ret ≠ .bool then throw (.notPredicate name ret)
  ofExcept (p.checkParams name params)
  modify fun p => { p with synthFuns := p.synthFuns ++ [⟨name, params, grammar⟩] }

/-- Adds the invariant constraint. -/
def constrain (inv pre trans post : String) : RequestM Unit := do
  let p ← get
  if p.constraint.isSome then throw .secondConstraint
  let some f := p.synthFun? inv
    | throw (if p.signature.contains inv then .notSynthesized inv else .unknownFunction inv)
  if let some x := SynthProblem.primedClash? f.params then throw (.primedClash x)
  let tys := f.params.map (·.ty)
  let pre ← ofExcept (p.predicate pre tys)
  let trans ← ofExcept (p.predicate trans (tys ++ tys))
  let post ← ofExcept (p.predicate post tys)
  modify fun p => { p with constraint := some ⟨f, pre, trans, post⟩ }

/-- The definitions of all functions to synthesize, once the constrained one is found. The grammars
of the others are built for that. -/
def complete (ticks : Nat) (c : InvConstraint) (invariant : Term) : RequestM (List FunDef) := do
  let p ← get
  p.synthFuns.mapM fun f => do
    if f.name = c.inv.name then return f.defineAs invariant
    let g ← ofExcept (f.buildGrammar p.logic c.system.constants)
    let body ← (g.firstTerm ticks : Option Term)
    return f.defineAs body

/-- Takes up what a search that has ended says about the problem. -/
def conclude (ticks : Nat) (c : InvConstraint) : SearchState → RequestM SynthOutcome
  | .searching => (none : Option SynthOutcome)
  | .found invariant => do
    let defs ← complete ticks c invariant
    modify fun p => { p with solutions := some defs }
    return .hasSolution
  | .exhausted => return .noSolution
  | .unknown kind reason => return .unknown (SearchState.reasonText kind reason)
  | .timeout => return .timeout

/-- Solves the problem, if that takes fewer than the given number of steps, and each step fewer
ticks than that. What was found before is forgotten first. -/
def solve (oracle : Oracle σ) (steps : Nat) (config : SearchConfig) (q : σ) :
    RequestM (SynthResult × σ) := do
  modify fun p => { p with solutions := none }
  let p ← get
  let some c := p.constraint | throw .noConstraint
  let g ← ofExcept (c.inv.buildGrammar p.logic c.system.constants)
  let (s, q) ← (Search.new c.system g config).run oracle steps q
  let outcome ← conclude steps c s.state
  return (⟨outcome, s.stats⟩, q)

end RequestM

end InvariantSearch
