import InvariantSearch.Proofs.Derivations
import InvariantSearch.Proofs.PrintedDefinitions

/-!
# What a term is read from

The first symbol of an application names an operator or a function (`Operator.ofSymbol`). `Joins`
tells what term the reader makes of an operator and its operands; `joins_of_ofOperands` says that it
makes nothing else. Of one operand of `+`, `*` or `=>` it makes the operand itself, so that the
operator leaves no trace (`Operator.lone?`).

A property of every tree and the term that is read from it is proved by the cases of `ReadingCases`.
A minus sign before a literal is a case of its own, since the reader takes both for one literal.
-/

namespace InvariantSearch

/-- What the first symbol of an application stands for. -/
inductive Operator where
  | not
  | equals
  | distinct
  | implies
  | ite
  | arith (op : ArithOp)
  | nary (op : NaryOp)
  | compare (rel : Comparison)
  | call (f : String)

namespace Operator

/-- The operator that a symbol names. Any other symbol names a function. -/
def ofSymbol : String → Operator
  | "not" => .not
  | "=" => .equals
  | "distinct" => .distinct
  | "=>" => .implies
  | "ite" => .ite
  | "+" => .arith .add
  | "-" => .arith .sub
  | "*" => .arith .mul
  | "and" => .nary .and
  | "or" => .nary .or
  | "<" => .compare .lt
  | "<=" => .compare .le
  | ">=" => .compare .ge
  | ">" => .compare .gt
  | f => .call f

/-- The sort of the operands, for the operators that are gone once a term with one operand is read.
-/
def lone? : Operator → Option Ty
  | .arith .add | .arith .mul => some .int
  | .implies => some .bool
  | _ => none

end Operator

namespace Sexp

/-- The first tree is the second one or a part of it. -/
inductive Inside (d : Sexp) : Sexp → Prop
  | refl : Inside d d
  | item {e : Sexp} {es : List Sexp} (h : e ∈ es) (inside : Inside d e) : Inside d (.list es)

theorem inside_atom_iff {d : Sexp} {a : Atom} : Inside d (.atom a) ↔ d = .atom a := by
  constructor
  · rintro ⟨⟩
    rfl
  · rintro rfl
    exact .refl

/-- An application inside another one is this one or inside an operand. -/
theorem app_inside_app_iff {head head' : String} {args args' : List Sexp} :
    Inside (app head' args') (app head args) ↔
      (head' = head ∧ args' = args) ∨ ∃ e ∈ args, Inside (app head' args') e := by
  constructor
  · intro h
    generalize he : app head args = e at h
    cases h with
    | refl =>
      simp only [app, symbol, list.injEq, List.cons.injEq, atom.injEq, Atom.symbol.injEq] at he
      exact .inl ⟨he.1.symm, he.2.symm⟩
    | @item e es he' inside =>
      rw [app, list.injEq] at he
      subst he
      rcases List.mem_cons.1 he' with rfl | he'
      · -- the head is a symbol, and no application is inside it
        rw [symbol, inside_atom_iff] at inside
        cases inside
      · exact .inr ⟨e, he', inside⟩
  · rintro (⟨rfl, rfl⟩ | ⟨e, he, inside⟩)
    · exact .refl
    · exact .item (List.mem_cons_of_mem _ he) inside

/-- Every application in the tree has the property. -/
def EveryApp (P : String → List Sexp → Prop) (e : Sexp) : Prop :=
  ∀ head args, (app head args).Inside e → P head args

variable {P : String → List Sexp → Prop}

theorem everyApp_atom (a : Atom) : EveryApp P (.atom a) := by
  intro head args inside
  cases inside_atom_iff.1 inside

theorem everyApp_app_iff {head : String} {args : List Sexp} :
    EveryApp P (app head args) ↔ P head args ∧ ∀ e ∈ args, EveryApp P e := by
  constructor
  · refine fun h => ⟨h head args .refl, fun e he head' args' inside => ?_⟩
    exact h head' args' (app_inside_app_iff.2 (.inr ⟨e, he, inside⟩))
  · rintro ⟨hhead, hargs⟩ head' args' inside
    obtain ⟨rfl, rfl⟩ | ⟨e, he, inside⟩ := app_inside_app_iff.1 inside
    · exact hhead
    · exact hargs e he head' args' inside

end Sexp

namespace Term

/-- The term is what the reader makes of the operator and its operands. -/
inductive Joins : Operator → List Term → Term → Prop
  | not (t : Term) : Joins .not [t] t.not
  | neg (t : Term) : Joins (.arith .sub) [t] t.neg
  | lone {op : Operator} {ty : Ty} (h : op.lone? = some ty) (t : Term) : Joins op [t] t
  | arith (op : ArithOp) (t u : Term) (us : List Term) :
      Joins (.arith op) (t :: u :: us) (arithChain op t (u :: us))
  | implies (t u : Term) (us : List Term) :
      Joins .implies (t :: u :: us) (impliesChain t (u :: us))
  | equals (t u : Term) : Joins .equals [t, u] (t.equals u)
  | distinct (t u : Term) : Joins .distinct [t, u] (t.equals u).not
  | nary (op : NaryOp) (t : Term) (ts : List Term) :
      Joins (.nary op) (t :: ts) (.nary op (t :: ts))
  | compare (rel : Comparison) (t u : Term) : Joins (.compare rel) [t, u] (.compare rel t u)
  | ite (c t e : Term) : Joins .ite [c, t, e] (.ite c t e)
  | call (f : String) (t : Term) (ts : List Term) : Joins (.call f) (t :: ts) (.app f (t :: ts))

theorem joins_arithChain {op : ArithOp} (h : op ≠ .sub) (t : Term) (ts : List Term) :
    Joins (.arith op) (t :: ts) (arithChain op t ts) := by
  cases ts with
  | nil =>
    cases op with
    | sub => exact absurd rfl h
    | add | mul => exact .lone rfl t
  | cons u us => exact .arith op t u us

theorem joins_impliesChain (t : Term) (ts : List Term) :
    Joins .implies (t :: ts) (impliesChain t ts) := by
  cases ts with
  | nil => exact .lone rfl t
  | cons u us => exact .implies t u us

theorem exists_of_binary {f : Term → Term → Term} {e : Malformed} {t u : Term} {ts : List Term}
    (h : (match ts with
      | [s] => .ok (f t s)
      | _ => .error e) = Except.ok u) : ∃ s, ts = [s] ∧ f t s = u := by
  split at h
  next s => exact ⟨s, rfl, Except.ok.inj h⟩
  next => cases h

/-- The reader joins operands in no other way. -/
theorem joins_of_ofOperands {head : String} {t u : Term} {ts : List Term}
    (h : ofOperands head t ts = .ok u) : Joins (.ofSymbol head) (t :: ts) u := by
  simp only [ofOperands] at h
  -- the cases are the lines of the reader's table, in its order
  split at h
  next =>
    split at h
    · cases h
      exact .not t
    · cases h
  next =>
    split at h
    · cases h
      exact .neg t
    next ts hts =>
      cases h
      obtain ⟨s, ss, rfl⟩ := List.exists_cons_of_ne_nil hts
      exact .arith .sub t s ss
  next =>
    cases h
    exact @joins_arithChain .add nofun t ts
  next =>
    cases h
    exact @joins_arithChain .mul nofun t ts
  next =>
    obtain ⟨s, rfl, rfl⟩ := exists_of_binary h
    exact .equals t s
  next =>
    obtain ⟨s, rfl, rfl⟩ := exists_of_binary (f := fun t s => (t.equals s).not) h
    exact .distinct t s
  next =>
    cases h
    exact joins_impliesChain t ts
  next =>
    cases h
    exact .nary .and t ts
  next =>
    cases h
    exact .nary .or t ts
  next =>
    obtain ⟨s, rfl, rfl⟩ := exists_of_binary h
    exact .compare .lt t s
  next =>
    obtain ⟨s, rfl, rfl⟩ := exists_of_binary h
    exact .compare .le t s
  next =>
    obtain ⟨s, rfl, rfl⟩ := exists_of_binary h
    exact .compare .ge t s
  next =>
    obtain ⟨s, rfl, rfl⟩ := exists_of_binary h
    exact .compare .gt t s
  next =>
    split at h
    next s r =>
      cases h
      exact .ite t s r
    next => cases h
  next => cases h
  next => cases h
  next => cases h
  next =>
    cases h
    rw [Operator.ofSymbol]
    · exact .call head t ts
    all_goals assumption

/-! ## All that is read -/

/-- What is to be shown of every tree and the term that is read from it, one case for each way to
read a term. -/
structure ReadingCases (P : Sexp → Term → Prop) : Prop where
  numeral {n : UInt64} {i : Int64} (value : i.toInt = n.toNat) : P (.numeral n) (.int i)
  minus {e : Sexp} {i j : Int64} (value : j.toInt = -i.toInt) (operand : P e (.int i)) :
    P (.app "-" [e]) (.int j)
  true_ : P (.symbol "true") (.bool true)
  false_ : P (.symbol "false") (.bool false)
  name {x : String} (ne_true : x ≠ "true") (ne_false : x ≠ "false") : P (.symbol x) (.id x)
  app {head : String} {args : List Sexp} {ts : List Term} {t : Term}
    (operands : List.Forall₂ (fun e t => ofSexp e = .ok t ∧ P e t) args ts)
    (joins : Joins (.ofSymbol head) ts t) : P (.app head args) t

namespace ReadingCases

variable {P : Sexp → Term → Prop}

/-- A tree that stands for an integer is a numeral, or a minus sign before such a tree. -/
theorem of_int? (hP : ReadingCases P) {e : Sexp} {i : Int64} (h : e.int? = some i) :
    P e (.int i) := by
  fun_induction Sexp.int? e generalizing i with
  | case1 n => exact hP.numeral (fitWord?_eq_some_iff.1 h)
  | case2 head e hhead ih =>
    obtain ⟨j, hj, hi⟩ := Option.bind_eq_some_iff.1 h
    obtain rfl : head = .symbol "-" := by
      unfold Sexp.symbol? at hhead
      split at hhead
      next => rw [Option.some.inj hhead, Sexp.symbol]
      next => cases hhead
    exact hP.minus (fitWord?_eq_some_iff.1 hi) (ih hj)
  | case3 => cases h
  | case4 => cases h

mutual

/-- What every way to read a term gives holds of all that is read. -/
theorem of_ofSexp (hP : ReadingCases P) : (e : Sexp) → ∀ t, ofSexp e = .ok t → P e t
  | .atom (.numeral n) => by
    intro t h
    rw [ofSexp, ofNumeral] at h
    cases hi : fitWord? n.toNat with
    | none => simp [hi] at h
    | some i =>
      rw [hi, Option.elim_some, Except.ok.injEq] at h
      exact h ▸ hP.numeral (fitWord?_eq_some_iff.1 hi)
  | .atom (.symbol x) => by
    intro t h
    unfold ofSexp at h
    split at h
    next heq => cases heq
    next heq =>
      cases heq
      cases h
      exact hP.true_
    next heq =>
      cases heq
      cases h
      exact hP.false_
    next heq =>
      cases heq
      cases h
      exact hP.name ‹_› ‹_›
    all_goals next heq => cases heq
  | .comment _ => by
    intro t h
    simp [ofSexp] at h
  | .list (.atom (.symbol head) :: args) => by
    intro t h
    rw [ofSexp] at h
    split at h
    next i hi =>
      rw [← Except.ok.inj h]
      exact hP.of_int? hi
    next =>
      obtain ⟨ts, hts, h⟩ := bind_eq_ok_iff.1 h
      split at h
      next => cases h
      next => exact hP.app (hP.of_ofSexps args _ hts) (joins_of_ofOperands h)
  | .list []
  | .list (.atom (.numeral _) :: _)
  | .list (.comment _ :: _)
  | .list (.list _ :: _) => by
    intro t h
    simp [ofSexp] at h

theorem of_ofSexps (hP : ReadingCases P) : (es : List Sexp) → ∀ ts, ofSexps es = .ok ts →
    List.Forall₂ (fun e t => ofSexp e = .ok t ∧ P e t) es ts
  | [] => by
    intro ts h
    rw [ofSexps, Except.ok.injEq] at h
    exact h ▸ .nil
  | e :: es => by
    intro ts h
    rw [ofSexps] at h
    obtain ⟨t, ht, h⟩ := bind_eq_ok_iff.1 h
    obtain ⟨us, hus, h⟩ := bind_eq_ok_iff.1 h
    rw [← Except.ok.inj h]
    exact .cons ⟨ht, hP.of_ofSexp e t ht⟩ (hP.of_ofSexps es us hus)

end

end ReadingCases

end Term

end InvariantSearch
