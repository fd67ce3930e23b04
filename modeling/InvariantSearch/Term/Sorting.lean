import InvariantSearch.Term.Basic

/-!
# Sorts of terms

Every variable has a declared sort, so the sort of a term is computed from the leaves up
(`Term.sortOf`), and the first mismatch from the left is reported. An n-ary operator needs an
operand.
-/

namespace InvariantSearch

/-- Why a term or a definition has no sort. -/
inductive SortError where
  | unknownVariable (name : String)
  | unknownFunction (name : String)
  | redeclared (name : String)
  | mismatch (expected found : Ty)
  | arity (f : String) (expected found : Nat)
  | noArguments (op : NaryOp)
  deriving DecidableEq

/-- The wording of the error. -/
def SortError.message : SortError → String
  | .unknownVariable x => "unknown variable/constant " ++ x
  | .unknownFunction f => "unknown function/definition " ++ f
  | .redeclared x => x ++ " was declared multiple times"
  | .mismatch expected found => "expected " ++ expected.name ++ " but found " ++ found.name
  | .arity f expected found =>
    "function " ++ f ++ " expected " ++ toString expected ++ " args but found " ++ toString found ++
      " args"
  | .noArguments .and => "and needs at least one argument"
  | .noArguments .or => "or needs at least one argument"

/-- The sorts of the variables in scope. -/
abbrev Context := String → Option Ty

namespace Context

/-- The sorts that binders give; of two binders of a name the later one counts. -/
def ofBinders (bs : List Binder) : Context := fun x =>
  (bs.reverse.find? (·.name = x)).map (·.ty)

end Context

/-- The first name that occurs a second time, reading left to right after the names in `seen`. -/
def firstRepeated? (seen : List String) : List Binder → Option String
  | [] => none
  | b :: bs => if b.name ∈ seen then some b.name else firstRepeated? (b.name :: seen) bs

/-- The context of binders with distinct names. -/
def Context.ofBinders? (bs : List Binder) : Except SortError Context :=
  match firstRepeated? [] bs with
  | some x => .error (.redeclared x)
  | none => .ok (ofBinders bs)

/-- Checks that a sort is the one that was expected. -/
def Ty.expect (expected found : Ty) : Except SortError Unit :=
  if expected = found then .ok () else .error (.mismatch expected found)

namespace Term

mutual

/-- The sort of a term. -/
def sortOf (sig : Signature) (ctx : Context) : Term → Except SortError Ty
  | .bool _ => .ok .bool
  | .int _ => .ok .int
  | .id x =>
    match ctx x with
    | some ty => .ok ty
    | none => .error (.unknownVariable x)
  | .app f args =>
    match sig.find? f with
    | none => .error (.unknownFunction f)
    | some decl =>
      if decl.params.length = args.length then do
        checkArgs sig ctx decl.params args
        return decl.ret
      else .error (.arity f decl.params.length args.length)
  | .unary .not t => do
    Ty.bool.expect (← sortOf sig ctx t)
    return .bool
  | .unary .neg t => do
    Ty.int.expect (← sortOf sig ctx t)
    return .int
  | .binary .equals s t => do
    let ty ← sortOf sig ctx s
    ty.expect (← sortOf sig ctx t)
    return .bool
  | .binary .implies s t => do
    Ty.bool.expect (← sortOf sig ctx s)
    Ty.bool.expect (← sortOf sig ctx t)
    return .bool
  | .nary op [] => .error (.noArguments op)
  | .nary _ ts => do
    checkFormulas sig ctx ts
    return .bool
  | .arith _ s t => do
    Ty.int.expect (← sortOf sig ctx s)
    Ty.int.expect (← sortOf sig ctx t)
    return .int
  | .compare _ s t => do
    Ty.int.expect (← sortOf sig ctx s)
    Ty.int.expect (← sortOf sig ctx t)
    return .bool
  | .ite c t e => do
    Ty.bool.expect (← sortOf sig ctx c)
    let ty ← sortOf sig ctx t
    ty.expect (← sortOf sig ctx e)
    return ty

/-- Checks arguments against the sorts of the parameters. -/
def checkArgs (sig : Signature) (ctx : Context) : List Ty → List Term → Except SortError Unit
  | ty :: tys, t :: ts => do
    ty.expect (← sortOf sig ctx t)
    checkArgs sig ctx tys ts
  | _, _ => .ok ()

/-- Checks that all terms of a list are formulas. -/
def checkFormulas (sig : Signature) (ctx : Context) : List Term → Except SortError Unit
  | [] => .ok ()
  | t :: ts => do
    Ty.bool.expect (← sortOf sig ctx t)
    checkFormulas sig ctx ts

end

/-- Checks that a term has the expected sort. -/
def checkSort (sig : Signature) (ctx : Context) (t : Term) (expected : Ty) :
    Except SortError Unit := do
  expected.expect (← t.sortOf sig ctx)

end Term

/-- Checks a definition: its name is new, its parameters are distinct, and its body has the declared
sort over the parameters alone. -/
def FunDef.check (sig : Signature) (d : FunDef) : Except SortError Unit :=
  if sig.contains d.name then .error (.redeclared d.name)
  else do
    let ctx ← Context.ofBinders? d.params
    d.body.checkSort sig ctx d.ret

end InvariantSearch
