import InvariantSearch.Term.Basic

/-!
# Logics

A problem is stated in one of three logics. `Logic.admits` checks every operator of a term against
the logic, from the outside in and from left to right, and reports the first that is not allowed.
In linear arithmetic a product needs a factor that is a literal, possibly negated.
-/

namespace InvariantSearch

/-- Which operators a problem may use. -/
inductive Logic where
  /-- Linear integer arithmetic. -/
  | lia
  /-- Integer arithmetic with any products. -/
  | nia
  /-- Booleans alone. -/
  | core
  deriving DecidableEq

/-- What a logic can refuse. -/
inductive Unsupported where
  | integers
  | product
  deriving DecidableEq

/-- The operation's name in messages. -/
def Unsupported.text : Unsupported → String
  | .integers => "integer arithmetic"
  | .product => "non-linear multiplication"

/-- An operation outside of the logic. -/
structure LogicError where
  logic : Logic
  op : Unsupported
  deriving DecidableEq

namespace Logic

/-- The logic's name. -/
def name : Logic → String
  | .lia => "LIA"
  | .nia => "NIA"
  | .core => "CORE"

/-- The quantifier-free logic that a solver is told. -/
def smtName : Logic → String
  | .lia => "QF_LIA"
  | .nia => "QF_NIA"
  | .core => "QF_UF"

/-- The logic of a name, which may begin with `QF_`. -/
def ofName? (name : String) : Option Logic :=
  let base :=
    match name.toList with
    | 'Q' :: 'F' :: '_' :: rest => String.ofList rest
    | _ => name
  match base with
  | "LIA" => some .lia
  | "NIA" => some .nia
  | "CORE" | "UF" => some .core
  | _ => none

/-- Whether there are integers. -/
def hasInts : Logic → Bool
  | .core => false
  | _ => true

/-- Whether both factors of a product may vary. -/
def isNonlinear : Logic → Bool
  | .nia => true
  | _ => false

end Logic

/-- The wording of the error. -/
def LogicError.message (e : LogicError) : String :=
  e.op.text ++ " is not allowed in logic " ++ e.logic.name

/-- Whether the term is a literal, possibly negated. -/
def Term.isConstant : Term → Bool
  | .int _ => true
  | .unary .neg t => t.isConstant
  | _ => false

namespace Logic

/-- What the logic refuses about the outermost operator of a term. -/
def refuses? (l : Logic) : Term → Option Unsupported
  | .int _ | .compare .. | .unary .neg _ | .arith .add .. | .arith .sub .. =>
    if l.hasInts then none else some .integers
  | .arith .mul s t =>
    if !l.hasInts then some .integers
    else if !l.isNonlinear && !s.isConstant && !t.isConstant then some .product
    else none
  | _ => none

mutual

/-- Checks every operator of a term. -/
def admits (l : Logic) (t : Term) : Except LogicError Unit :=
  match l.refuses? t with
  | some op => .error ⟨l, op⟩
  | none =>
    match t with
    | .bool _ | .int _ | .id _ => .ok ()
    | .app _ args | .nary _ args => l.admitsAll args
    | .unary _ t => l.admits t
    | .binary _ s t | .arith _ s t | .compare _ s t => do l.admits s; l.admits t
    | .ite c t e => do l.admits c; l.admits t; l.admits e

/-- Checks every operator of a list of terms. -/
def admitsAll (l : Logic) : List Term → Except LogicError Unit
  | [] => .ok ()
  | t :: ts => do l.admits t; l.admitsAll ts

end

end Logic

end InvariantSearch
