import InvariantSearch.Logic
import InvariantSearch.Sexp.Reader
import InvariantSearch.Term.Reader

/-!
# Problem files

A problem file is a sequence of commands in the invariant track of the SyGuS format. It is read in
two steps: first as s-expressions with their places in the text, then each one, without its
comments, as a `Command`. `parseProblem` gives all commands with their places, or the first error.
-/

namespace InvariantSearch

/-- The right-hand side of a production. -/
inductive RuleSyntax where
  /-- A term; its identifiers may be nonterminals. -/
  | term (t : Term)
  /-- Any literal of the sort. -/
  | anyConstant (ty : Ty)
  /-- Any parameter of the sort. -/
  | anyVariable (ty : Ty)
  deriving DecidableEq

/-- A nonterminal with its productions. -/
structure NonterminalSyntax where
  name : String
  ty : Ty
  rules : List RuleSyntax
  deriving DecidableEq

/-- A grammar as it is written. The first nonterminal is the start symbol. -/
abbrev GrammarSyntax := List NonterminalSyntax

/-- A command of a problem file. -/
inductive Command where
  | setLogic (logic : Logic)
  | setOption (name value : String)
  /-- The declaration of a state variable. The parameters of the invariant name the state, so it
  carries no information. -/
  | declareVar (b : Binder)
  | defineFun (d : FunDef)
  | synthFun (name : String) (params : List Binder) (ret : Ty) (grammar : Option GrammarSyntax)
  | invConstraint (inv pre trans post : String)
  | checkSynth
  deriving DecidableEq

/-- Reads one production. -/
def RuleSyntax.ofSexp (e : Sexp) : Except Malformed RuleSyntax :=
  match e.app? with
  | some ("Constant", [ty]) => .anyConstant <$> Ty.ofSexp ty
  | some ("Variable", [ty]) => .anyVariable <$> Ty.ofSexp ty
  | _ => .term <$> Term.ofSexp e

/-- Reads `(name sort (rules…))`. -/
def NonterminalSyntax.ofSexp : Sexp → Except Malformed NonterminalSyntax
  | .list [name, ty, rules] =>
    match name.symbol?, rules.items? with
    | none, _ => .error (.nonterminalName name)
    | some x, none => .error (.ruleList x)
    | some x, some es => do
      let ty ← Ty.ofSexp ty
      let rules ← es.mapM RuleSyntax.ofSexp
      return ⟨x, ty, rules⟩
  | e => .error (.nonterminal e)

/-- The items of a list, or the given error about it. -/
def Sexp.itemsOr (error : Sexp → Malformed) (e : Sexp) : Except Malformed (List Sexp) :=
  match e.items? with
  | some es => .ok es
  | none => .error (error e)

/-- Reads a grammar: the list of its nonterminals, which a list of their declarations may precede.
The declarations have to agree with the nonterminals. -/
def GrammarSyntax.ofSexps : List Sexp → Except Malformed GrammarSyntax
  | [declarations, rules] => do
    let declarations ← declarations.itemsOr .declarations
    let nonterminals ← (← rules.itemsOr .rules).mapM NonterminalSyntax.ofSexp
    let declared ← declarations.mapM Binder.ofSexp
    if declared = nonterminals.map (fun n => ⟨n.name, n.ty⟩) then return nonterminals
    else .error .undeclared
  | [rules] => do (← rules.itemsOr .rules).mapM NonterminalSyntax.ofSexp
  | _ => .error .grammar

/-- Reads an optional grammar, which is there if anything is. -/
def GrammarSyntax.ofSexps? : List Sexp → Except Malformed (Option GrammarSyntax)
  | [] => .ok none
  | es => some <$> ofSexps es

/-- Reads a symbol. -/
def Sexp.toSymbol (e : Sexp) : Except Malformed String :=
  match e.symbol? with
  | some s => .ok s
  | none => .error (.symbol e)

namespace Command

/-- Reads the arguments of a command. -/
def ofArgs (head : String) (args : List Sexp) : Except Malformed Command :=
  let arity (n : Nat) : Except Malformed Command := .error (.arity head n args.length)
  match head with
  | "set-logic" =>
    match args with
    | [e] => do
      let name ← e.toSymbol
      match Logic.ofName? name with
      | some l => return .setLogic l
      | none => .error (.logic name)
    | _ => arity 1
  | "set-option" =>
    match args with
    | [e, value] => do
      let name ← e.toSymbol
      match name.toList with
      | ':' :: rest => return .setOption (String.ofList rest) value.render
      | _ => .error (.optionName name)
    | _ => arity 2
  | "declare-var" | "declare-primed-var" =>
    match args with
    | [name, ty] => do
      let x ← name.toSymbol
      return .declareVar ⟨x, ← Ty.ofSexp ty⟩
    | _ => arity 2
  | "define-fun" =>
    match args with
    | [name, params, ret, body] => do
      let f ← name.toSymbol
      let params ← Binder.listOfSexp params
      let ret ← Ty.ofSexp ret
      return .defineFun ⟨f, params, ret, ← Term.ofSexp body⟩
    | _ => arity 4
  | "synth-inv" =>
    match args with
    | name :: params :: grammar => do
      let f ← name.toSymbol
      let params ← Binder.listOfSexp params
      return .synthFun f params .bool (← GrammarSyntax.ofSexps? grammar)
    | _ => .error .synthInv
  | "synth-fun" =>
    match args with
    | name :: params :: ret :: grammar => do
      let f ← name.toSymbol
      let params ← Binder.listOfSexp params
      let ret ← Ty.ofSexp ret
      return .synthFun f params ret (← GrammarSyntax.ofSexps? grammar)
    | _ => .error .synthFun
  | "inv-constraint" =>
    match args with
    | [inv, pre, next, post] => do
      return .invConstraint (← inv.toSymbol) (← pre.toSymbol) (← next.toSymbol) (← post.toSymbol)
    | _ => arity 4
  | "check-synth" =>
    match args with
    | [] => .ok .checkSynth
    | _ => arity 0
  | _ => .error (.unknownCommand head)

/-- Reads one command. -/
def ofSexp (e : Sexp) : Except Malformed Command :=
  match e.app? with
  | some (head, args) => ofArgs head args
  | none => .error (.command e)

end Command

/-- Why a text is not a problem. -/
inductive ProblemError where
  /-- The text is not a sequence of s-expressions. -/
  | notSexps (e : SyntaxError)
  /-- The s-expression at the place is not a command. -/
  | malformed (e : Malformed) (span : Span)
  deriving DecidableEq

namespace ProblemError

/-- The wording of the error. -/
def message : ProblemError → String
  | .notSexps e => "syntax error: expected " ++ e.message
  | .malformed e _ => e.message

/-- The part of the text to blame. -/
def span : ProblemError → Span
  | .notSexps e => ⟨e.offset, e.offset⟩
  | .malformed _ span => span

end ProblemError

/-- Reads the command at a place. Comments inside it do not count, and a comment is no command. -/
def Command.ofSpanned (span : Span) (e : Sexp) : Except ProblemError (Option (Span × Command)) :=
  match e.withoutComments with
  | none => .ok none
  | some e =>
    match Command.ofSexp e with
    | .ok c => .ok (some (span, c))
    | .error err => .error (.malformed err span)

/-- Reads a whole problem. -/
def parseProblem (text : String) : Except ProblemError (List (Span × Command)) :=
  match Sexp.parseSpanned text with
  | .error e => .error (.notSexps e)
  | .ok es => do
    let commands ← es.mapM fun (span, e) => Command.ofSpanned span e
    return commands.filterMap id

end InvariantSearch
