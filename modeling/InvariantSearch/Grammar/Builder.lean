import InvariantSearch.Grammar.Basic
import InvariantSearch.Problem.Command
import InvariantSearch.Term.Printer
import InvariantSearch.Term.Sorting

/-!
# Building grammars

A grammar that a problem gives is built up nonterminal by nonterminal and rule by rule, and each
step is checked: names are new, the start symbol is Boolean, rules have the sort of their
nonterminal and stay inside the logic. "Any constant" and "any variable" stand for rules that are
only known when the grammar is finished, by `GrammarBuilder.build`.
-/

namespace InvariantSearch

/-- Why a grammar cannot be used. -/
inductive GrammarError where
  | noNonterminals
  | startNotBool (name : String) (ty : Ty)
  | unknownNonterminal (name : String)
  | redeclared (name : String)
  | duplicateRule (nonterminal : String) (rule : Term)
  | illSorted (nonterminal : String) (rule : Term) (err : SortError)
  /-- "Any constant" or "any variable" of another sort than that of the nonterminal. -/
  | otherSort (nonterminal : String) (expected found : Ty)
  | outsideLogic (nonterminal : String) (rule : Term) (err : LogicError)
  /-- "Any constant" for integers in a logic without integers. -/
  | noIntegers (nonterminal : String) (logic : Logic)
  deriving DecidableEq

/-- The wording of an error in a rule. -/
def GrammarError.aboutRule (nonterminal rule message : String) : String :=
  "rule " ++ rule ++ " for " ++ nonterminal ++ ": " ++ message

/-- The wording of the error. -/
def GrammarError.message : GrammarError → String
  | .noNonterminals => "grammar has no nonterminals"
  | .startNotBool name ty =>
    "start symbol " ++ name ++ " has sort " ++ ty.name ++ ", but it must be Bool"
  | .unknownNonterminal name => "unknown nonterminal " ++ name
  | .redeclared name => name ++ " was declared multiple times"
  | .duplicateRule nt rule => "duplicate rule " ++ rule.render ++ " for " ++ nt
  | .illSorted nt rule err => aboutRule nt rule.render err.message
  | .otherSort nt expected found =>
    aboutRule nt ("(" ++ found.name ++ ")") (SortError.mismatch expected found).message
  | .outsideLogic nt rule err => aboutRule nt rule.render err.message
  | .noIntegers nt logic =>
    aboutRule nt "(Constant Int)" (LogicError.message ⟨logic, .integers⟩)

/-- What a nonterminal may produce. -/
inductive RuleSpec where
  | term (t : Term)
  | anyConstant
  | anyVariable
  deriving DecidableEq

/-- The grammar of a function with the given parameters, as far as it is built. -/
structure GrammarBuilder where
  params : List Binder
  logic : Logic
  entries : List (Nonterminal × List RuleSpec)
  deriving DecidableEq

namespace GrammarBuilder

/-- Nothing declared yet. -/
def new (params : List Binder) (logic : Logic) : GrammarBuilder := ⟨params, logic, []⟩

/-- The nonterminals declared so far. -/
def nonterminals (b : GrammarBuilder) : List Nonterminal := b.entries.map (·.1)

/-- The sorts of the parameters and the nonterminals. -/
def context (b : GrammarBuilder) : Context :=
  .ofBinders (b.params ++ b.nonterminals.map fun n => ⟨n.name, n.ty⟩)

/-- The number of a nonterminal, with what it may produce so far. -/
def entry (b : GrammarBuilder) (nt : String) :
    Except GrammarError (Nat × Nonterminal × List RuleSpec) :=
  match b.entries.findIdx? (·.1.name = nt) with
  | none => .error (.unknownNonterminal nt)
  | some i =>
    match b.entries[i]? with
    | none => .error (.unknownNonterminal nt)
    | some e => .ok (i, e)

/-- Gives a nonterminal one more thing to produce. -/
def push (b : GrammarBuilder) (i : Nat) (spec : RuleSpec) : GrammarBuilder :=
  { b with entries := b.entries.modify i fun e => (e.1, e.2 ++ [spec]) }

/-- Declares a nonterminal; the first one is the start symbol. -/
def declare (b : GrammarBuilder) (name : String) (ty : Ty) : Except GrammarError GrammarBuilder :=
  if b.entries.isEmpty && ty ≠ .bool then .error (.startNotBool name ty)
  else if b.nonterminals.any (·.name = name) || b.params.any (·.name = name) then
    .error (.redeclared name)
  else .ok { b with entries := b.entries ++ [(⟨name, ty⟩, [])] }

/-- Adds a rule to a nonterminal. -/
def addRule (b : GrammarBuilder) (nt : String) (rule : Term) :
    Except GrammarError GrammarBuilder := do
  let (i, n, specs) ← b.entry nt
  (rule.checkSort [] b.context n.ty).mapError (.illSorted nt rule)
  (b.logic.admits rule).mapError (.outsideLogic nt rule)
  if .term rule ∈ specs then .error (.duplicateRule nt rule)
  else return b.push i (.term rule)

/-- Adds rules to a nonterminal, up to the first that is wrong. -/
def addRules (b : GrammarBuilder) (nt : String) (rules : List Term) :
    GrammarBuilder × Except GrammarError Unit :=
  match rules with
  | [] => (b, .ok ())
  | rule :: rules =>
    match b.addRule nt rule with
    | .ok b => b.addRules nt rules
    | .error e => (b, .error e)

/-- Lets a nonterminal produce the constants of its sort: the two literals, or 0, 1 and the
constants given when the grammar is finished. -/
def addAnyConstant (b : GrammarBuilder) (nt : String) : Except GrammarError GrammarBuilder := do
  let (i, n, specs) ← b.entry nt
  if n.ty = .int && !b.logic.hasInts then .error (.noIntegers nt b.logic)
  else return if .anyConstant ∈ specs then b else b.push i .anyConstant

/-- Lets a nonterminal produce the parameters of its sort. -/
def addAnyVariable (b : GrammarBuilder) (nt : String) : Except GrammarError GrammarBuilder := do
  let (i, _, specs) ← b.entry nt
  return if .anyVariable ∈ specs then b else b.push i .anyVariable

/-- Checks that a nonterminal has the given sort. -/
def expectTy (b : GrammarBuilder) (nt : String) (ty : Ty) : Except GrammarError Unit := do
  let (_, n, _) ← b.entry nt
  if n.ty = ty then return else .error (.otherSort nt n.ty ty)

/-- Adds a rule as it is written. -/
def addSyntax (b : GrammarBuilder) (nt : String) : RuleSyntax → Except GrammarError GrammarBuilder
  | .term t => b.addRule nt t
  | .anyConstant ty => do
    b.expectTy nt ty
    b.addAnyConstant nt
  | .anyVariable ty => do
    b.expectTy nt ty
    b.addAnyVariable nt

/-- Takes over a grammar as it is written: first all nonterminals, then their rules. -/
def ofSyntax (params : List Binder) (logic : Logic) (g : GrammarSyntax) :
    Except GrammarError GrammarBuilder := do
  let b ← g.foldlM (fun b n => b.declare n.name n.ty) (new params logic)
  g.foldlM (fun b n => n.rules.foldlM (fun b r => b.addSyntax n.name r) b) b

/-- The templates that a nonterminal of the given sort may produce. -/
def expand (b : GrammarBuilder) (constants : List Int64) (ty : Ty) : RuleSpec → List Term
  | .term t => [t]
  | .anyConstant =>
    match ty with
    | .bool => [.bool true, .bool false]
    | .int => (0 :: 1 :: ascending constants).map .int
  | .anyVariable => (b.params.filter (·.ty = ty)).map fun p => .id p.name

/-- The grammar of everything declared, where "any constant" includes the given constants. A
template that a nonterminal may produce in several ways is one rule. -/
def finish (b : GrammarBuilder) (constants : List Int64) : Grammar :=
  .ofProductions b.nonterminals <|
    b.entries.map fun (n, specs) => (specs.flatMap (b.expand constants n.ty)).eraseDups

/-- The finished grammar, if it has a start symbol. -/
def build (b : GrammarBuilder) (constants : List Int64) : Except GrammarError Grammar :=
  if b.entries.isEmpty then .error .noNonterminals else .ok (b.finish constants)

end GrammarBuilder

end InvariantSearch
