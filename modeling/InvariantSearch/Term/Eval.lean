import InvariantSearch.Term.Basic

/-!
# Values of terms

`Term.eval` computes the value of a term under an assignment of values to names. Operators are
evaluated from left to right, and the logical ones stop as soon as their value is known. Integer
results that leave the range of a word are an error, so that "false" and "could not be computed" are
never confused.
-/

namespace InvariantSearch

/-- A value of one of the sorts. -/
inductive Value where
  | bool (b : Bool)
  | int (i : Int64)
  deriving DecidableEq

namespace Value

/-- The sort of a value. -/
def ty : Value → Ty
  | .bool _ => .bool
  | .int _ => .int

/-- The literal that stands for a value. -/
def toTerm : Value → Term
  | .bool b => .bool b
  | .int i => .int i

/-- The written form of a value. -/
def render : Value → String
  | .bool true => "true"
  | .bool false => "false"
  | .int i => toString i.toInt

end Value

/-- Values for finitely many names, kept in the order of the names. -/
structure Assignment where
  entries : List (String × Value)
  deriving DecidableEq

namespace Assignment

/-- No values. -/
def empty : Assignment := ⟨[]⟩

/-- Puts a name into its place among entries in order, instead of an earlier entry of that name. -/
def insertEntry (x : String) (v : Value) : List (String × Value) → List (String × Value)
  | [] => [(x, v)]
  | (y, w) :: rest =>
    if x < y then (x, v) :: (y, w) :: rest
    else if x = y then (x, v) :: rest
    else (y, w) :: insertEntry x v rest

/-- Gives a name a value. -/
def insert (a : Assignment) (x : String) (v : Value) : Assignment :=
  ⟨insertEntry x v a.entries⟩

/-- The assignment of pairs; of two pairs with one name the later one counts. -/
def ofList (pairs : List (String × Value)) : Assignment :=
  pairs.foldl (fun a p => a.insert p.1 p.2) empty

/-- The value of a name. -/
def get? (a : Assignment) (x : String) : Option Value :=
  (a.entries.find? (·.1 = x)).map (·.2)

/-- How many names have a value. -/
def size (a : Assignment) : Nat := a.entries.length

/-- The written form: `name = value`, in the order of the names. -/
def render (a : Assignment) : String :=
  String.intercalate ", " (a.entries.map fun (x, v) => x ++ " = " ++ v.render)

end Assignment

/-- Why a term has no value. -/
inductive EvalError where
  | unassigned (name : String)
  | uninterpreted (f : String)
  | mismatch (expected found : Ty)
  | overflow
  deriving DecidableEq

/-- The wording of the error. -/
def EvalError.message : EvalError → String
  | .unassigned x => "variable " ++ x ++ " is unassigned"
  | .uninterpreted f => "cannot evaluate application of " ++ f
  | .mismatch expected found => "expected " ++ expected.name ++ " but found " ++ found.name
  | .overflow => "integer overflow"

namespace Value

/-- The truth value, if the value has sort Bool. -/
def asBool : Value → Except EvalError Bool
  | .bool b => .ok b
  | v => .error (.mismatch .bool v.ty)

/-- The integer, if the value has sort Int. -/
def asInt : Value → Except EvalError Int64
  | .int i => .ok i
  | v => .error (.mismatch .int v.ty)

/-- The word for an integer result. -/
def ofInt (n : Int) : Except EvalError Value :=
  match fitWord? n with
  | some i => .ok (.int i)
  | none => .error .overflow

end Value

/-- The operation on integers. -/
def ArithOp.apply : ArithOp → Int → Int → Int
  | .add, a, b => a + b
  | .sub, a, b => a - b
  | .mul, a, b => a * b

/-- Whether the relation holds between two integers. -/
def Comparison.holds : Comparison → Int → Int → Bool
  | .lt, a, b => a < b
  | .le, a, b => a ≤ b
  | .ge, a, b => a ≥ b
  | .gt, a, b => a > b

namespace Term

mutual

/-- The value of a term where `env` gives the values of names. -/
def eval (env : String → Option Value) : Term → Except EvalError Value
  | .bool b => .ok (.bool b)
  | .int i => .ok (.int i)
  | .id x =>
    match env x with
    | some v => .ok v
    | none => .error (.unassigned x)
  | .app f _ => .error (.uninterpreted f)
  | .unary .not t => do
    let b ← (← eval env t).asBool
    return .bool !b
  | .unary .neg t => do
    let i ← (← eval env t).asInt
    Value.ofInt (-i.toInt)
  | .binary .equals s t => do
    let v ← eval env s
    let w ← eval env t
    if v.ty = w.ty then return .bool (v = w) else .error (.mismatch v.ty w.ty)
  | .binary .implies s t => do
    let b ← (← eval env s).asBool
    if b then
      let c ← (← eval env t).asBool
      return .bool c
    else return .bool true
  | .nary .and ts => do
    let b ← evalAll env ts
    return .bool b
  | .nary .or ts => do
    let b ← evalAny env ts
    return .bool b
  | .arith op s t => do
    let i ← (← eval env s).asInt
    let j ← (← eval env t).asInt
    Value.ofInt (op.apply i.toInt j.toInt)
  | .compare rel s t => do
    let i ← (← eval env s).asInt
    let j ← (← eval env t).asInt
    return .bool (rel.holds i.toInt j.toInt)
  | .ite c t e => do
    let b ← (← eval env c).asBool
    if b then eval env t else eval env e

/-- Whether all formulas hold, asking up to the first that does not. -/
def evalAll (env : String → Option Value) : List Term → Except EvalError Bool
  | [] => .ok true
  | t :: ts => do
    let b ← (← eval env t).asBool
    if b then evalAll env ts else return false

/-- Whether some formula holds, asking up to the first that does. -/
def evalAny (env : String → Option Value) : List Term → Except EvalError Bool
  | [] => .ok false
  | t :: ts => do
    let b ← (← eval env t).asBool
    if b then return true else evalAny env ts

end

end Term

/-! ## Operands from their results -/

namespace NaryOp

/-- The truth value of an operand that decides the result, so that no operand after it counts. -/
def decisive : NaryOp → Bool
  | .and => false
  | .or => true

/-- The truth value of operands whose values are computed, up to the first that decides it. -/
def ofResults (op : NaryOp) : List (Except EvalError Value) → Except EvalError Bool
  | [] => .ok !op.decisive
  | x :: xs => do
    let b ← (← x).asBool
    if b = op.decisive then return b else op.ofResults xs

end NaryOp

namespace Term

variable {env : String → Option Value}

theorem evalAll_eq_ofResults (ts : List Term) :
    evalAll env ts = NaryOp.and.ofResults (ts.map (eval env)) := by
  induction ts with
  | nil => rfl
  | cons t ts ih =>
    rw [evalAll, ih, List.map_cons, NaryOp.ofResults]
    rcases t.eval env with e | ⟨_ | _⟩ | i <;> rfl

theorem evalAny_eq_ofResults (ts : List Term) :
    evalAny env ts = NaryOp.or.ofResults (ts.map (eval env)) := by
  induction ts with
  | nil => rfl
  | cons t ts ih =>
    rw [evalAny, ih, List.map_cons, NaryOp.ofResults]
    rcases t.eval env with e | ⟨_ | _⟩ | i <;> rfl

/-- A conjunction or disjunction depends on the results of its operands alone. -/
theorem eval_nary (op : NaryOp) (ts : List Term) :
    (nary op ts).eval env = do return .bool (← op.ofResults (ts.map (eval env))) := by
  cases op with
  | and => rw [eval, evalAll_eq_ofResults]
  | or => rw [eval, evalAny_eq_ofResults]

/-- The truth value of a formula. -/
def evalBool (env : String → Option Value) (t : Term) : Except EvalError Bool := do
  (← t.eval env).asBool

end Term

end InvariantSearch
