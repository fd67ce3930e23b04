import InvariantSearch.Malformed
import InvariantSearch.Term.Basic

/-!
# Reading terms

Sorts, parameters and terms are read from s-expressions. A name is not resolved, so the same reader
serves for grammar rules, which mention nonterminals. `+`, `-` and `*` associate to the left and
`=>` to the right, and a minus sign before a literal belongs to the literal.
-/

namespace InvariantSearch

/-- Reads the name of a sort. -/
def Ty.ofSexp (e : Sexp) : Except Malformed Ty :=
  match e.symbol? with
  | some "Bool" => .ok .bool
  | some "Int" => .ok .int
  | _ => .error (.sort e)

/-- Reads `(name sort)`. -/
def Binder.ofSexp : Sexp → Except Malformed Binder
  | .list [name, ty] =>
    match name.symbol? with
    | some x => do return ⟨x, ← Ty.ofSexp ty⟩
    | none => .error (.parameterName name)
  | e => .error (.binder e)

/-- Reads a list of parameters. -/
def Binder.listOfSexp (e : Sexp) : Except Malformed (List Binder) :=
  match e.items? with
  | some es => es.mapM ofSexp
  | none => .error (.parameters e)

namespace Term

/-- Joins operands from left to right. -/
def arithChain (op : ArithOp) (t : Term) (ts : List Term) : Term :=
  ts.foldl (.arith op) t

/-- Joins formulas to implications from right to left. -/
def impliesChain : Term → List Term → Term
  | t, [] => t
  | t, u :: us => t.implies (impliesChain u us)

/-- The term for an operator or function and its operands, of which there is at least one. -/
def ofOperands (head : String) (t : Term) (ts : List Term) : Except Malformed Term :=
  let arity (n : Nat) : Except Malformed Term := .error (.arity head n (ts.length + 1))
  let binary (f : Term → Term → Term) : Except Malformed Term :=
    match ts with
    | [u] => .ok (f t u)
    | _ => arity 2
  match head with
  | "not" =>
    match ts with
    | [] => .ok t.not
    | _ => arity 1
  | "-" =>
    match ts with
    | [] => .ok t.neg
    | _ => .ok (arithChain .sub t ts)
  | "+" => .ok (arithChain .add t ts)
  | "*" => .ok (arithChain .mul t ts)
  | "=" => binary .equals
  | "distinct" => binary fun t u => (t.equals u).not
  | "=>" => .ok (impliesChain t ts)
  | "and" => .ok (.nary .and (t :: ts))
  | "or" => .ok (.nary .or (t :: ts))
  | "<" => binary (.compare .lt)
  | "<=" => binary (.compare .le)
  | ">=" => binary (.compare .ge)
  | ">" => binary (.compare .gt)
  | "ite" =>
    match ts with
    | [u, v] => .ok (.ite t u v)
    | _ => arity 3
  | "let" | "forall" | "exists" => .error (.unsupported head)
  | _ => .ok (.app head (t :: ts))

/-- Reads a numeral. -/
def ofNumeral (n : UInt64) : Except Malformed Term :=
  (fitWord? n.toNat).elim (.error (.numeral n)) fun i => .ok (.int i)

mutual

/-- Reads a term. -/
def ofSexp : Sexp → Except Malformed Term
  | .atom (.numeral n) => ofNumeral n
  | .atom (.symbol "true") => .ok (.bool true)
  | .atom (.symbol "false") => .ok (.bool false)
  | .atom (.symbol x) => .ok (.id x)
  | .comment _ => .error .comment
  | .list (.atom (.symbol head) :: args) =>
    match Sexp.int? (.list (.atom (.symbol head) :: args)) with
    | some i => .ok (.int i)
    | none => do
      match ← ofSexps args with
      | [] => .error (.noArguments head)
      | t :: ts => ofOperands head t ts
  | .list es => .error (.term (.list es))

/-- Reads a list of terms. -/
def ofSexps : List Sexp → Except Malformed (List Term)
  | [] => .ok []
  | e :: es => do
    let t ← ofSexp e
    let ts ← ofSexps es
    return t :: ts

end

end Term

end InvariantSearch
