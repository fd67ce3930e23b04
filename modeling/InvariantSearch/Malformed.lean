import InvariantSearch.Sexp.Printer

/-!
# Malformed input

The ways in which an s-expression fails to be the sort, term, grammar or command that its place in a
problem asks for.
-/

namespace InvariantSearch

/-- Why an s-expression does not say what its place asks for. -/
inductive Malformed where
  | sort (found : Sexp)
  | parameters (found : Sexp)
  | parameterName (found : Sexp)
  | binder (found : Sexp)
  | arity (head : String) (expected found : Nat)
  | numeral (n : UInt64)
  | comment
  | term (found : Sexp)
  | noArguments (head : String)
  | unsupported (head : String)
  | nonterminalName (found : Sexp)
  | ruleList (nonterminal : String)
  | nonterminal (found : Sexp)
  | declarations (found : Sexp)
  | rules (found : Sexp)
  | undeclared
  | grammar
  | symbol (found : Sexp)
  | command (found : Sexp)
  | logic (name : String)
  | optionName (name : String)
  | synthInv
  | synthFun
  | unknownCommand (head : String)
  deriving DecidableEq

/-- The wording of the error. -/
def Malformed.message : Malformed → String
  | .sort e => "unsupported sort " ++ e.render
  | .parameters e => "expected parameter list, found " ++ e.render
  | .parameterName e => "expected parameter name, found " ++ e.render
  | .binder e => "expected (name sort), found " ++ e.render
  | .arity head expected found =>
    head ++ " expects " ++ toString expected ++ " arguments but was given " ++ toString found
  | .numeral n => "numeral " ++ toString n.toNat ++ " is too large"
  | .comment => "unexpected comment"
  | .term e => "cannot parse " ++ e.render ++ " as a term"
  | .noArguments head => "application of " ++ head ++ " to no arguments"
  | .unsupported head => head ++ " is not supported"
  | .nonterminalName e => "expected nonterminal name, found " ++ e.render
  | .ruleList name => "expected list of rules for " ++ name
  | .nonterminal e => "expected (name sort (rules..)), found " ++ e.render
  | .declarations e => "expected nonterminal declarations, found " ++ e.render
  | .rules e => "expected grammar rules, found " ++ e.render
  | .undeclared => "grammar rules do not match the declared nonterminals"
  | .grammar => "malformed grammar"
  | .symbol e => "expected a symbol, found " ++ e.render
  | .command e => "expected a command, found " ++ e.render
  | .logic name => "unsupported logic " ++ name
  | .optionName name => "option name " ++ name ++ " should start with :"
  | .synthInv => "synth-inv expects a name and parameters"
  | .synthFun => "synth-fun expects a name, parameters and a sort"
  | .unknownCommand head => "unsupported command " ++ head

end InvariantSearch
