import InvariantSearch.Synthesis.Error
import InvariantSearch.Term.Subst
import InvariantSearch.Transition

/-!
# Synthesis problems

A problem collects definitions, functions to synthesize and one invariant constraint. Each is
checked when it is added, and a declaration that is refused leaves the problem as it was.
Definitions may call earlier ones, whose bodies replace the calls as soon as a definition is added;
so the transition system of the constraint (`InvConstraint.system`) has no calls.
-/

namespace InvariantSearch

/-- Options that are fixed before anything is declared. -/
structure ProblemOptions where
  /-- Whether this is a synthesis problem, which it has to be. -/
  synthesis : Bool
  /-- Whether the problem may be added to after it was solved, which is not supported. -/
  incremental : Bool
  /-- The logic of definitions, grammars and conditions. -/
  logic : Logic
  deriving DecidableEq

/-- The options of a problem that sets none. -/
def ProblemOptions.default : ProblemOptions := ⟨true, false, .lia⟩

/-- A predicate to synthesize. Without a grammar of its own it has the standard one. -/
structure SynthFun where
  name : String
  params : List Binder
  grammar : Option GrammarBuilder
  deriving DecidableEq

/-- The constraint that a predicate is an inductive invariant. -/
structure InvConstraint where
  inv : SynthFun
  pre : FunDef
  trans : FunDef
  post : FunDef
  deriving DecidableEq

/-- A problem as far as it is stated. Definitions and functions to synthesize are in the order of
their declaration. -/
structure SynthProblem where
  logic : Logic
  /-- The definitions, with the calls in their bodies replaced. -/
  defs : List FunDef
  synthFuns : List SynthFun
  constraint : Option InvConstraint
  /-- What was found for the functions to synthesize when the problem was solved last. -/
  solutions : Option (List FunDef)
  deriving DecidableEq

/-- The definition with all calls of the given definitions replaced. -/
def FunDef.inline (defs : List FunDef) (d : FunDef) : FunDef :=
  { d with body := d.body.inline defs }

/-- The transition system of a constraint over the parameters of its predicate. -/
def InvConstraint.system (c : InvConstraint) : TransitionSystem :=
  .ofDefs c.inv.params c.pre c.trans c.post

/-- The grammar of a predicate to synthesize, where the constants are those that a problem
mentions. -/
def SynthFun.grammarWith (logic : Logic) (constants : List Int64) (f : SynthFun) : Grammar :=
  match f.grammar with
  | some b => b.finish constants
  | none => .standard f.params logic constants

namespace SynthProblem

/-- A problem without declarations. -/
def new (options : ProblemOptions) : Except SynthesisError SynthProblem :=
  if !options.synthesis then .error .notSynthesis
  else if options.incremental then .error .incremental
  else .ok ⟨options.logic, [], [], none, none⟩

/-- The functions that terms may call. -/
def signature (p : SynthProblem) : Signature := p.defs.map FunDef.decl

/-- The function to synthesize of a name. -/
def synthFun? (p : SynthProblem) (name : String) : Option SynthFun :=
  p.synthFuns.find? (·.name = name)

/-- Checks that a name is not taken. -/
def checkFresh (p : SynthProblem) (name : String) : Except SynthesisError Unit :=
  if p.signature.contains name || (p.synthFun? name).isSome then .error (.redeclared name)
  else .ok ()

/-- Checks that parameters are distinct and that the logic has their sorts. -/
def checkParams (p : SynthProblem) (name : String) (params : List Binder) :
    Except SynthesisError Unit := do
  let _ ← (Context.ofBinders? params).mapError (.illSorted name)
  if !p.logic.hasInts && params.any (·.ty = .int) then
    throw (.outsideLogic name ⟨p.logic, .integers⟩)

/-- Adds a definition. -/
def define (p : SynthProblem) (d : FunDef) : Except SynthesisError SynthProblem := do
  p.checkFresh d.name
  p.checkParams d.name d.params
  (d.check p.signature).mapError (.illSorted d.name)
  (p.logic.admits d.body).mapError (.outsideLogic d.name)
  return { p with defs := p.defs ++ [d.inline p.defs] }

/-- Checks a grammar as it is written. -/
def checkGrammar (p : SynthProblem) (params : List Binder) (grammar : GrammarSyntax) :
    Except GrammarError GrammarBuilder := do
  let b ← GrammarBuilder.ofSyntax params p.logic grammar
  let _ ← b.build []
  return b

/-- Adds a predicate to synthesize. -/
def declare (p : SynthProblem) (name : String) (params : List Binder) (ret : Ty)
    (grammar : Option GrammarSyntax) : Except SynthesisError SynthProblem := do
  let grammar ← (grammar.mapM (p.checkGrammar params)).mapError (.badGrammar name)
  p.checkFresh name
  if ret ≠ .bool then throw (.notPredicate name ret)
  p.checkParams name params
  return { p with synthFuns := p.synthFuns ++ [⟨name, params, grammar⟩] }

/-- The defined predicate of a name, which has to take parameters of the given sorts. -/
def predicate (p : SynthProblem) (name : String) (expected : List Ty) :
    Except SynthesisError FunDef :=
  match findDef? p.defs name with
  | none =>
    .error (if (p.synthFun? name).isSome then .notDefined name else .unknownFunction name)
  | some d =>
    let found := d.params.map (·.ty)
    if d.ret ≠ .bool then .error (.notPredicate name d.ret)
    else if found ≠ expected then .error (.parameterSorts name expected found)
    else .ok d

/-- The first name of a next-state copy that is the name of a variable as well. -/
def primedClash? (vars : List Binder) : Option String :=
  (vars.map fun b => primeName b.name).find? fun x => vars.any (·.name = x)

/-- Adds the invariant constraint, of which there is only one. The transition relation takes the
parameters of the predicate twice. -/
def constrain (p : SynthProblem) (inv pre trans post : String) :
    Except SynthesisError SynthProblem := do
  if p.constraint.isSome then throw .secondConstraint
  match p.synthFun? inv with
  | none =>
    throw (if p.signature.contains inv then .notSynthesized inv else .unknownFunction inv)
  | some f =>
    if let some x := primedClash? f.params then throw (.primedClash x)
    let tys := f.params.map (·.ty)
    let pre ← p.predicate pre tys
    let trans ← p.predicate trans (tys ++ tys)
    let post ← p.predicate post tys
    return { p with constraint := some ⟨f, pre, trans, post⟩ }

/-- The definitions found when the problem was solved last. -/
def solution (p : SynthProblem) : Except SynthesisError (List FunDef) :=
  match p.solutions with
  | some defs => .ok defs
  | none => .error .noSolution

end SynthProblem

end InvariantSearch
