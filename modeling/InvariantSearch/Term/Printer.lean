import InvariantSearch.Sexp.Printer
import InvariantSearch.Term.Basic

/-!
# Writing terms

Terms and definitions are written as SMT-LIB s-expressions. A call without arguments is written as
the bare name of the function.
-/

namespace InvariantSearch

/-- The operator's symbol. -/
def UnaryOp.symbol : UnaryOp → String
  | .not => "not"
  | .neg => "-"

/-- The operator's symbol. -/
def BinaryOp.symbol : BinaryOp → String
  | .equals => "="
  | .implies => "=>"

/-- The operator's symbol. -/
def NaryOp.symbol : NaryOp → String
  | .and => "and"
  | .or => "or"

/-- The operator's symbol. -/
def ArithOp.symbol : ArithOp → String
  | .add => "+"
  | .sub => "-"
  | .mul => "*"

/-- The relation's symbol. -/
def Comparison.symbol : Comparison → String
  | .lt => "<"
  | .le => "<="
  | .ge => ">="
  | .gt => ">"

/-- The s-expression of a sort. -/
def Ty.toSexp (ty : Ty) : Sexp := .symbol ty.name

/-- The s-expression `(name sort)`. -/
def Binder.toSexp (b : Binder) : Sexp := .list [.symbol b.name, b.ty.toSexp]

namespace Term

mutual

/-- The s-expression of a term. -/
def toSexp : Term → Sexp
  | .bool b => .symbol (if b then "true" else "false")
  | .int i => .ofInt i
  | .id name => .symbol name
  | .app f [] => .symbol f
  | .app f args => .app f (toSexps args)
  | .unary op t => .app op.symbol [toSexp t]
  | .binary op s t => .app op.symbol [toSexp s, toSexp t]
  | .nary op ts => .app op.symbol (toSexps ts)
  | .arith op s t => .app op.symbol [toSexp s, toSexp t]
  | .compare rel s t => .app rel.symbol [toSexp s, toSexp t]
  | .ite c t e => .app "ite" [toSexp c, toSexp t, toSexp e]

/-- The s-expressions of a list of terms. -/
def toSexps : List Term → List Sexp
  | [] => []
  | t :: ts => toSexp t :: toSexps ts

end

theorem toSexps_eq_map (ts : List Term) : toSexps ts = ts.map toSexp := by
  induction ts with
  | nil => rfl
  | cons t ts ih => simp [toSexps, ih]

/-- The written form of a term. -/
def render (t : Term) : String := t.toSexp.render

end Term

namespace FunDef

/-- The s-expression `(define-fun name (params…) sort body)`. -/
def toSexp (d : FunDef) : Sexp :=
  .app "define-fun"
    [.symbol d.name, .list (d.params.map Binder.toSexp), d.ret.toSexp, d.body.toSexp]

/-- The written form of a definition. -/
def render (d : FunDef) : String := d.toSexp.render

end FunDef

end InvariantSearch
