import InvariantSearch.Term.Basic

/-!
# Substitution and inlining

Terms bind no names, so a substitution replaces every occurrence of an identifier, all at once.
Priming renames the variables of a state to those of the next state. `Term.inline` replaces calls by
the bodies of the called definitions, whose own calls it replaces in turn.
-/

namespace InvariantSearch

/-- The terms that stand for some identifiers. -/
abbrev Substitution := String → Option Term

/-- The substitution of pairs; of two pairs with one name the later one counts. -/
def Substitution.ofList (pairs : List (String × Term)) : Substitution := fun x =>
  (pairs.reverse.find? (·.1 = x)).map (·.2)

/-- The name of a variable's copy in the next state. -/
def primeName (x : String) : String := x ++ "'"

/-- The variable's copy in the next state. -/
def Binder.prime (b : Binder) : Binder := { b with name := primeName b.name }

namespace Term

mutual

/-- Replaces identifiers. -/
def subst (σ : Substitution) : Term → Term
  | .bool b => .bool b
  | .int i => .int i
  | .id x => (σ x).getD (.id x)
  | .app f args => .app f (substAll σ args)
  | .unary op t => .unary op (subst σ t)
  | .binary op s t => .binary op (subst σ s) (subst σ t)
  | .nary op ts => .nary op (substAll σ ts)
  | .arith op s t => .arith op (subst σ s) (subst σ t)
  | .compare rel s t => .compare rel (subst σ s) (subst σ t)
  | .ite c t e => .ite (subst σ c) (subst σ t) (subst σ e)

/-- Replaces identifiers in a list of terms. -/
def substAll (σ : Substitution) : List Term → List Term
  | [] => []
  | t :: ts => subst σ t :: substAll σ ts

end

theorem substAll_eq_map (σ : Substitution) (ts : List Term) :
    substAll σ ts = ts.map (subst σ) := by
  induction ts with
  | nil => rfl
  | cons t ts ih => simp [substAll, ih]

/-- The term about the next state. -/
def prime (vars : List Binder) (t : Term) : Term :=
  t.subst (.ofList (vars.map fun b => (b.name, .id (primeName b.name))))

mutual

/-- Replaces calls, innermost first: `call f args` stands for the call of `f` with arguments whose
own calls are already replaced. -/
def mapCalls (call : String → List Term → Term) : Term → Term
  | .bool b => .bool b
  | .int i => .int i
  | .id x => .id x
  | .app f args => call f (mapCallsAll call args)
  | .unary op t => .unary op (mapCalls call t)
  | .binary op s t => .binary op (mapCalls call s) (mapCalls call t)
  | .nary op ts => .nary op (mapCallsAll call ts)
  | .arith op s t => .arith op (mapCalls call s) (mapCalls call t)
  | .compare rel s t => .compare rel (mapCalls call s) (mapCalls call t)
  | .ite c t e => .ite (mapCalls call c) (mapCalls call t) (mapCalls call e)

/-- Replaces calls in a list of terms. -/
def mapCallsAll (call : String → List Term → Term) : List Term → List Term
  | [] => []
  | t :: ts => mapCalls call t :: mapCallsAll call ts

end

theorem mapCallsAll_eq_map (call : String → List Term → Term) (ts : List Term) :
    mapCallsAll call ts = ts.map (mapCalls call) := by
  induction ts with
  | nil => rfl
  | cons t ts ih => simp [mapCallsAll, ih]

end Term

/-- The substitution of arguments for the parameters of a definition. A parameter without an
argument stays. -/
def FunDef.instantiation (d : FunDef) (args : List Term) : Substitution :=
  .ofList ((d.params.map (·.name)).zip args)

/-- The body of a definition at the given arguments. -/
def FunDef.unfold (d : FunDef) (args : List Term) : Term :=
  d.body.subst (d.instantiation args)

/-- The last definition of a name. -/
def findDef? (defs : List FunDef) (f : String) : Option FunDef :=
  defs.reverse.find? (·.name = f)

namespace Term

/-- Inlines calls to a depth of `depth` calls inside each other. -/
def inlineTo (defs : List FunDef) : (depth : Nat) → Term → Term
  | 0, t => t
  | depth + 1, t => t.mapCalls fun f args =>
    match findDef? defs f with
    | some d => inlineTo defs depth (d.unfold args)
    | none => .app f args

/-- Replaces every call of a definition by its body. Where no definition leads back to itself, calls
are nested no deeper than there are definitions; any others are unrolled that often. -/
def inline (defs : List FunDef) (t : Term) : Term :=
  t.inlineTo defs defs.length

end Term

end InvariantSearch
