import InvariantSearch.Word

/-!
# Terms

Quantifier-free terms over Booleans and integers, and the definitions and declarations of functions
that they may call. A variable of the next state is an identifier whose name ends in a prime.

`Term.conj` and `Term.disj` build conjunctions and disjunctions from any number of terms; they
flatten one level. All other constructors keep the term as it was built.
-/

namespace InvariantSearch

/-- The sort of a term. -/
inductive Ty where
  | bool
  | int
  deriving DecidableEq

/-- The name of a sort. -/
def Ty.name : Ty → String
  | .bool => "Bool"
  | .int => "Int"

/-- A variable with its sort. -/
structure Binder where
  name : String
  ty : Ty
  deriving DecidableEq

/-- Operators on one term. -/
inductive UnaryOp where
  | not
  | neg
  deriving DecidableEq, Hashable

/-- Operators on two terms of any sort, or of sort Bool. -/
inductive BinaryOp where
  | equals
  | implies
  deriving DecidableEq, Hashable

/-- Logical operators on any number of formulas. -/
inductive NaryOp where
  | and
  | or
  deriving DecidableEq, Hashable

/-- Integer operations. -/
inductive ArithOp where
  | add
  | sub
  | mul
  deriving DecidableEq, Hashable

/-- Integer comparisons. -/
inductive Comparison where
  | lt
  | le
  | ge
  | gt
  deriving DecidableEq, Hashable

/-- A quantifier-free term or formula. -/
inductive Term where
  | bool (value : Bool)
  | int (value : Int64)
  | id (name : String)
  | app (f : String) (args : List Term)
  | unary (op : UnaryOp) (arg : Term)
  | binary (op : BinaryOp) (lhs rhs : Term)
  | nary (op : NaryOp) (args : List Term)
  | arith (op : ArithOp) (lhs rhs : Term)
  | compare (rel : Comparison) (lhs rhs : Term)
  | ite (cond then_ else_ : Term)
  deriving Hashable

namespace Term

mutual

/-- Whether two terms are the same. -/
def same : Term → Term → Bool
  | .bool a, .bool b => a = b
  | .int a, .int b => a = b
  | .id a, .id b => a = b
  | .app f ss, .app g ts => f = g && sameList ss ts
  | .unary o s, .unary p t => o = p && same s t
  | .binary o s₁ s₂, .binary p t₁ t₂ => o = p && same s₁ t₁ && same s₂ t₂
  | .nary o ss, .nary p ts => o = p && sameList ss ts
  | .arith o s₁ s₂, .arith p t₁ t₂ => o = p && same s₁ t₁ && same s₂ t₂
  | .compare o s₁ s₂, .compare p t₁ t₂ => o = p && same s₁ t₁ && same s₂ t₂
  | .ite s₁ s₂ s₃, .ite t₁ t₂ t₃ => same s₁ t₁ && same s₂ t₂ && same s₃ t₃
  | _, _ => false

/-- Whether two lists of terms are the same. -/
def sameList : List Term → List Term → Bool
  | [], [] => true
  | s :: ss, t :: ts => same s t && sameList ss ts
  | _, _ => false

end

mutual

theorem same_iff : (s t : Term) → (same s t = true ↔ s = t)
  | .bool _, t | .int _, t | .id _, t => by cases t <;> simp [same]
  | .app _ ss, t => by cases t <;> simp [same, sameList_iff ss]
  | .unary _ s, t => by cases t <;> simp [same, same_iff s]
  | .binary _ s₁ s₂, t => by cases t <;> simp [same, same_iff s₁, same_iff s₂, and_assoc]
  | .nary _ ss, t => by cases t <;> simp [same, sameList_iff ss]
  | .arith _ s₁ s₂, t => by cases t <;> simp [same, same_iff s₁, same_iff s₂, and_assoc]
  | .compare _ s₁ s₂, t => by cases t <;> simp [same, same_iff s₁, same_iff s₂, and_assoc]
  | .ite s₁ s₂ s₃, t => by
    cases t <;> simp [same, same_iff s₁, same_iff s₂, same_iff s₃, and_assoc]

theorem sameList_iff : (ss ts : List Term) → (sameList ss ts = true ↔ ss = ts)
  | [], ts => by cases ts <;> simp [sameList]
  | s :: ss, ts => by cases ts <;> simp [sameList, same_iff s, sameList_iff ss]

end

instance : DecidableEq Term := fun s t => decidable_of_iff (same s t) (same_iff s t)

instance : Inhabited Term := ⟨.bool true⟩

/-- Negation of a formula. -/
def not (t : Term) : Term := .unary .not t

/-- Negation of an integer. -/
def neg (t : Term) : Term := .unary .neg t

/-- Equality of two terms of one sort. -/
def equals (s t : Term) : Term := .binary .equals s t

/-- Implication between two formulas. -/
def implies (s t : Term) : Term := .binary .implies s t

/-- The operands of a term built with `op`, and any other term as its own only operand. -/
def operands (op : NaryOp) : Term → List Term
  | .nary op' ts => if op' = op then ts else [.nary op' ts]
  | t => [t]

/-- Joins formulas with `op`, where `unit` joins none. One formula stays as it is; of several, those
already built with `op` give their operands, one level deep. -/
def join (op : NaryOp) (unit : Bool) : List Term → Term
  | [] => .bool unit
  | [t] => t
  | ts => .nary op (ts.flatMap (operands op))

/-- The conjunction of any number of formulas. -/
def conj (ts : List Term) : Term := join .and true ts

/-- The disjunction of any number of formulas. -/
def disj (ts : List Term) : Term := join .or false ts

/-- The immediate subterms, left to right. -/
def children : Term → List Term
  | .bool _ | .int _ | .id _ => []
  | .app _ args | .nary _ args => args
  | .unary _ t => [t]
  | .binary _ s t | .arith _ s t | .compare _ s t => [s, t]
  | .ite c t e => [c, t, e]

mutual

/-- The number of nodes. -/
def size : Term → Nat
  | .bool _ | .int _ | .id _ => 1
  | .app _ args | .nary _ args => 1 + sizes args
  | .unary _ t => 1 + size t
  | .binary _ s t | .arith _ s t | .compare _ s t => 1 + (size s + size t)
  | .ite c t e => 1 + (size c + size t + size e)

/-- The number of nodes of a list of terms. -/
def sizes : List Term → Nat
  | [] => 0
  | t :: ts => size t + sizes ts

end

mutual

/-- The identifiers of the term, left to right and with repetitions, and then the given ones. -/
def prependIds (rest : List String) : Term → List String
  | .id name => name :: rest
  | .bool _ | .int _ => rest
  | .app _ args | .nary _ args => prependAllIds rest args
  | .unary _ t => prependIds rest t
  | .binary _ s t | .arith _ s t | .compare _ s t => prependIds (prependIds rest t) s
  | .ite c t e => prependIds (prependIds (prependIds rest e) t) c

/-- The identifiers of a list of terms, and then the given ones. -/
def prependAllIds (rest : List String) : List Term → List String
  | [] => rest
  | t :: ts => prependIds (prependAllIds rest ts) t

end

/-- The identifiers of the term, left to right and with repetitions. -/
def ids (t : Term) : List String := prependIds [] t

mutual

theorem prependIds_eq (rest : List String) : (t : Term) → prependIds rest t = t.ids ++ rest
  | .id _ | .bool _ | .int _ => rfl
  | .app _ args | .nary _ args => by
    simpa only [ids, prependIds] using prependAllIds_eq rest args
  | .unary _ t => by simpa only [ids, prependIds] using prependIds_eq rest t
  | .binary _ s t | .arith _ s t | .compare _ s t => by
    simp only [ids, prependIds]
    rw [prependIds_eq _ s, prependIds_eq rest t, prependIds_eq (prependIds [] t) s]
    simp [ids]
  | .ite c t e => by
    simp only [ids, prependIds]
    rw [prependIds_eq _ c, prependIds_eq _ t, prependIds_eq rest e,
      prependIds_eq (prependIds (prependIds [] e) t) c, prependIds_eq (prependIds [] e) t]
    simp [ids]

theorem prependAllIds_eq (rest : List String) :
    (ts : List Term) → prependAllIds rest ts = prependAllIds [] ts ++ rest
  | [] => rfl
  | t :: ts => by
    simp only [prependAllIds]
    rw [prependIds_eq _ t, prependAllIds_eq rest ts, prependIds_eq (prependAllIds [] ts) t]
    simp

end

mutual

/-- The integer literals of the term, left to right and with repetitions, and then the given ones. A
negated literal counts as one literal, the negative one, unless that is out of range. -/
def prependLiterals (rest : List Int64) : Term → List Int64
  | .int i => i :: rest
  | .bool _ | .id _ => rest
  | .unary .neg (.int i) => (fitWord? (-i.toInt)).toList ++ rest
  | .app _ args | .nary _ args => prependAllLiterals rest args
  | .unary _ t => prependLiterals rest t
  | .binary _ s t | .arith _ s t | .compare _ s t => prependLiterals (prependLiterals rest t) s
  | .ite c t e => prependLiterals (prependLiterals (prependLiterals rest e) t) c

/-- The integer literals of a list of terms, and then the given ones. -/
def prependAllLiterals (rest : List Int64) : List Term → List Int64
  | [] => rest
  | t :: ts => prependLiterals (prependAllLiterals rest ts) t

end

/-- The integer literals of the term, left to right and with repetitions. -/
def literals (t : Term) : List Int64 := prependLiterals [] t

/-- The identifiers of the term, each once and in order. -/
def idSet (t : Term) : List String :=
  t.ids.eraseDups.mergeSort (· ≤ ·)

end Term

/-- The members of a list of words, each once and in ascending order. -/
def ascending (ws : List Int64) : List Int64 :=
  ws.eraseDups.mergeSort (· ≤ ·)

/-- A function definition. The parameters are the free variables of the body. -/
structure FunDef where
  name : String
  params : List Binder
  ret : Ty
  body : Term
  deriving DecidableEq

/-- The declared type of a function. -/
structure FunDecl where
  name : String
  params : List Ty
  ret : Ty
  deriving DecidableEq

/-- The declaration of a definition. -/
def FunDef.decl (d : FunDef) : FunDecl :=
  ⟨d.name, d.params.map (·.ty), d.ret⟩

/-- The functions in scope, in the order of their declaration. -/
abbrev Signature := List FunDecl

/-- The first function of a name. -/
def Signature.find? (sig : Signature) (name : String) : Option FunDecl :=
  List.find? (·.name = name) sig

/-- Whether a function has the name. -/
def Signature.contains (sig : Signature) (name : String) : Bool :=
  (sig.find? name).isSome

end InvariantSearch
