import InvariantSearch.Proofs.TermReading

/-!
# Sorts of what is read

`Sexp.HasTy` gives s-expressions their sorts by the ranks of the operators in SMT-LIB
(`Operator.Rank`), whatever terms are read from them. If an s-expression has a sort, the term that
is read from it has the same (`Sexp.readingCases_hasTy`).

The converse fails. `+`, `*` and `=>` with one operand are gone once the term is read, so the sort
of the operand is never checked against them. A well-sorted term is read from a well-sorted
s-expression if and only if the operand has the right sort wherever this happens
(`Sexp.hasTy_iff_loneSorted`).
-/

namespace InvariantSearch

variable {sig : Signature} {ctx : Context}

/-- The sorts of the operands and of the result, for the numbers of operands that are read. -/
inductive Operator.Rank (sig : Signature) : Operator → List Ty → Ty → Prop
  | not : Rank sig .not [.bool] .bool
  | equals (ty : Ty) : Rank sig .equals [ty, ty] .bool
  | distinct (ty : Ty) : Rank sig .distinct [ty, ty] .bool
  | implies (n : Nat) : Rank sig .implies (.replicate (n + 1) .bool) .bool
  | ite (ty : Ty) : Rank sig .ite [.bool, ty, ty] ty
  | arith (op : ArithOp) (n : Nat) : Rank sig (.arith op) (.replicate (n + 1) .int) .int
  | nary (op : NaryOp) (n : Nat) : Rank sig (.nary op) (.replicate (n + 1) .bool) .bool
  | compare (rel : Comparison) : Rank sig (.compare rel) [.int, .int] .bool
  | call {f : String} {decl : FunDecl} (h : sig.find? f = some decl) :
      Rank sig (.call f) decl.params decl.ret

/-- The sort of a symbol, of which two stand for the truth values. -/
def Context.symbolTy? (ctx : Context) (x : String) : Option Ty :=
  if x = "true" ∨ x = "false" then some .bool else ctx x

theorem Context.symbolTy?_of_ne {x : String} (ne_true : x ≠ "true") (ne_false : x ≠ "false") :
    ctx.symbolTy? x = ctx x := by
  rw [symbolTy?, if_neg (by simp [ne_true, ne_false])]

namespace Sexp

/-- The s-expression has the sort, where `sig` tells the functions in scope and `ctx` the variables.
-/
inductive HasTy (sig : Signature) (ctx : Context) : Sexp → Ty → Prop
  | numeral (n : UInt64) : HasTy sig ctx (.numeral n) .int
  | symbol {x : String} {ty : Ty} (h : ctx.symbolTy? x = some ty) : HasTy sig ctx (.symbol x) ty
  | app {head : String} {args : List Sexp} {tys : List Ty} {ty : Ty}
      (rank : (Operator.ofSymbol head).Rank sig tys ty)
      (operands : List.Forall₂ (HasTy sig ctx) args tys) : HasTy sig ctx (.app head args) ty

theorem hasTy_numeral_iff {n : UInt64} {ty : Ty} : HasTy sig ctx (.numeral n) ty ↔ ty = .int := by
  constructor
  · rintro ⟨⟩
    rfl
  · rintro rfl
    exact .numeral n

theorem hasTy_symbol_iff {x : String} {ty : Ty} :
    HasTy sig ctx (.symbol x) ty ↔ ctx.symbolTy? x = some ty := by
  constructor
  · rintro ⟨⟩
    assumption
  · exact .symbol

theorem hasTy_app_iff {head : String} {args : List Sexp} {ty : Ty} :
    HasTy sig ctx (.app head args) ty ↔
      ∃ tys, (Operator.ofSymbol head).Rank sig tys ty ∧ List.Forall₂ (HasTy sig ctx) args tys := by
  constructor
  · intro h
    generalize he : app head args = e at h
    cases h with
    | numeral | symbol => cases he
    | app rank operands =>
      cases he
      exact ⟨_, rank, operands⟩
  · rintro ⟨tys, rank, operands⟩
    exact .app rank operands

end Sexp

/-! ## Operators and their operands -/

theorem forall₂_replicate_iff {α β : Type} {R : α → β → Prop} {as : List α} {b : β} {n : Nat} :
    List.Forall₂ R as (.replicate n b) ↔ as.length = n ∧ ∀ a ∈ as, R a b := by
  induction as generalizing n with
  | nil => cases n <;> simp [List.replicate_succ]
  | cons a as ih =>
    cases n with
    | zero => simp
    | succ n =>
      rw [List.replicate_succ, List.forall₂_cons, ih, List.forall_mem_cons, List.length_cons,
        Nat.succ_inj, and_left_comm]

theorem Operator.lone?_eq_some_iff {op : Operator} {ty : Ty} :
    op.lone? = some ty ↔
      ((op = .arith .add ∨ op = .arith .mul) ∧ ty = .int) ∨ (op = .implies ∧ ty = .bool) := by
  rcases op with _ | _ | _ | _ | _ | (_ | _ | _) | _ | _ | _ <;> simp [lone?, eq_comm]

theorem Operator.rank_of_lone? {op : Operator} {ty : Ty} (h : op.lone? = some ty) :
    op.Rank sig [ty] ty := by
  obtain ⟨rfl | rfl, rfl⟩ | ⟨rfl, rfl⟩ := lone?_eq_some_iff.1 h
  · exact .arith .add 0
  · exact .arith .mul 0
  · exact .implies 0

theorem Operator.Rank.eq_of_lone? {op : Operator} {ty ty' ty'' : Ty} (h : op.Rank sig [ty'] ty)
    (hlone : op.lone? = some ty'') : ty' = ty'' ∧ ty = ty'' := by
  generalize htys : [ty'] = tys at h
  obtain ⟨rfl | rfl, rfl⟩ | ⟨rfl, rfl⟩ := lone?_eq_some_iff.1 hlone <;>
    cases h <;> simp_all [List.replicate_succ]

namespace Term

theorem hasTy_arith_iff {op : ArithOp} {s t : Term} {ty : Ty} :
    HasTy sig ctx (.arith op s t) ty ↔ ty = .int ∧ HasTy sig ctx s .int ∧ HasTy sig ctx t .int := by
  constructor
  · rintro ⟨⟩
    exact ⟨rfl, ‹_›, ‹_›⟩
  · rintro ⟨rfl, hs, ht⟩
    exact .arith hs ht

theorem hasTy_implies_iff {s t : Term} {ty : Ty} :
    HasTy sig ctx (s.implies t) ty ↔
      ty = .bool ∧ HasTy sig ctx s .bool ∧ HasTy sig ctx t .bool := by
  constructor
  · rintro ⟨⟩
    exact ⟨rfl, ‹_›, ‹_›⟩
  · rintro ⟨rfl, hs, ht⟩
    exact .implies hs ht

/-- Folding to the left checks every operand. -/
theorem hasTy_arithChain_iff {op : ArithOp} {t u : Term} {us : List Term} {ty : Ty} :
    HasTy sig ctx (arithChain op t (u :: us)) ty ↔
      ty = .int ∧ ∀ s ∈ t :: u :: us, HasTy sig ctx s .int := by
  induction us generalizing t u with
  | nil => simpa [arithChain] using hasTy_arith_iff
  | cons v us ih =>
    have hchain : arithChain op t (u :: v :: us) = arithChain op (.arith op t u) (v :: us) := rfl
    rw [hchain, ih]
    simp [hasTy_arith_iff, and_assoc]

/-- Folding to the right checks every operand. -/
theorem hasTy_impliesChain_iff {t u : Term} {us : List Term} {ty : Ty} :
    HasTy sig ctx (impliesChain t (u :: us)) ty ↔
      ty = .bool ∧ ∀ s ∈ t :: u :: us, HasTy sig ctx s .bool := by
  induction us generalizing t u ty with
  | nil => simpa [impliesChain] using hasTy_implies_iff
  | cons v us ih =>
    rw [impliesChain, hasTy_implies_iff, ih]
    simp

/-- A well-sorted term is made of operands of the right sorts, unless the operator is gone. -/
theorem Joins.exists_rank {op : Operator} {ts : List Term} {t : Term} {ty : Ty} (h : Joins op ts t)
    (typed : HasTy sig ctx t ty)
    (lone : ∀ s ty, ts = [s] → op.lone? = some ty → HasTy sig ctx s ty) :
    ∃ tys, op.Rank sig tys ty ∧ List.Forall₂ (HasTy sig ctx) ts tys := by
  cases h with
  | not t =>
    cases typed with
    | not ht => exact ⟨_, .not, .cons ht .nil⟩
  | neg t =>
    cases typed with
    | neg ht => exact ⟨_, .arith .sub 0, .cons ht .nil⟩
  | @lone _ ty' hlone t =>
    have ht := lone t ty' rfl hlone
    obtain rfl := typed.unique ht
    exact ⟨_, Operator.rank_of_lone? hlone, .cons ht .nil⟩
  | arith op t u us =>
    obtain ⟨rfl, hts⟩ := hasTy_arithChain_iff.1 typed
    exact ⟨_, .arith op (us.length + 1), forall₂_replicate_iff.2 ⟨rfl, hts⟩⟩
  | implies t u us =>
    obtain ⟨rfl, hts⟩ := hasTy_impliesChain_iff.1 typed
    exact ⟨_, .implies (us.length + 1), forall₂_replicate_iff.2 ⟨rfl, hts⟩⟩
  | equals t u =>
    cases typed with
    | equals ht hu => exact ⟨_, .equals _, .cons ht (.cons hu .nil)⟩
  | distinct t u =>
    cases typed with
    | not h =>
      cases h with
      | equals ht hu => exact ⟨_, .distinct _, .cons ht (.cons hu .nil)⟩
  | nary op t ts =>
    cases typed with
    | nary _ hts => exact ⟨_, .nary op ts.length, forall₂_replicate_iff.2 ⟨rfl, hts⟩⟩
  | compare rel t u =>
    cases typed with
    | compare ht hu => exact ⟨_, .compare rel, .cons ht (.cons hu .nil)⟩
  | ite c t e =>
    cases typed with
    | ite hc ht he => exact ⟨_, .ite _, .cons hc (.cons ht (.cons he .nil))⟩
  | call f t ts =>
    cases typed with
    | app hf arity hts =>
      exact ⟨_, .call hf, (List.forall₂_iff_zip.2 ⟨arity, fun h => hts (_, _) h⟩).flip⟩

/-- Operands of the right sorts make a term of the right sort. -/
theorem Joins.hasTy {op : Operator} {ts : List Term} {t : Term} {tys : List Ty} {ty : Ty}
    (h : Joins op ts t) (rank : op.Rank sig tys ty)
    (operands : List.Forall₂ (HasTy sig ctx) ts tys) : HasTy sig ctx t ty := by
  cases h with
  | not t =>
    cases rank
    rcases operands with _ | ⟨ht, _⟩
    exact .not ht
  | neg t =>
    cases rank
    rw [forall₂_replicate_iff] at operands
    exact .neg (operands.2 t (by simp))
  | @lone _ ty' hlone t =>
    rcases operands with _ | ⟨ht, _ | _⟩
    obtain ⟨rfl, rfl⟩ := rank.eq_of_lone? hlone
    exact ht
  | arith op t u us =>
    cases rank
    rw [forall₂_replicate_iff] at operands
    exact hasTy_arithChain_iff.2 ⟨rfl, operands.2⟩
  | implies t u us =>
    cases rank
    rw [forall₂_replicate_iff] at operands
    exact hasTy_impliesChain_iff.2 ⟨rfl, operands.2⟩
  | equals t u =>
    cases rank
    rcases operands with _ | ⟨ht, _ | ⟨hu, _⟩⟩
    exact .equals ht hu
  | distinct t u =>
    cases rank
    rcases operands with _ | ⟨ht, _ | ⟨hu, _⟩⟩
    exact .not (.equals ht hu)
  | nary op t ts =>
    cases rank
    rw [forall₂_replicate_iff] at operands
    exact .nary (by simp) operands.2
  | compare rel t u =>
    cases rank
    rcases operands with _ | ⟨ht, _ | ⟨hu, _⟩⟩
    exact .compare ht hu
  | ite c t e =>
    cases rank
    rcases operands with _ | ⟨hc, _ | ⟨ht, _ | ⟨he, _⟩⟩⟩
    exact .ite hc ht he
  | call f t ts =>
    cases rank with
    | call hf =>
      obtain ⟨arity, hts⟩ := List.forall₂_iff_zip.1 operands.flip
      exact .app hf arity fun _ hp => hts hp

end Term

/-! ## Sorts of trees and terms -/

namespace Sexp

/-- The term has a sort of the tree that it is read from. -/
theorem readingCases_hasTy :
    Term.ReadingCases fun e t => ∀ ty, HasTy sig ctx e ty → Term.HasTy sig ctx t ty where
  numeral _ ty h := hasTy_numeral_iff.1 h ▸ .int _
  minus _ _ ty h := by
    obtain ⟨_, rank, _⟩ := hasTy_app_iff.1 h
    cases rank
    exact .int _
  true_ ty h := by
    obtain rfl := Option.some.inj (hasTy_symbol_iff.1 h)
    exact .bool true
  false_ ty h := by
    obtain rfl := Option.some.inj (hasTy_symbol_iff.1 h)
    exact .bool false
  name ne_true ne_false ty h := by
    rw [hasTy_symbol_iff, Context.symbolTy?_of_ne ne_true ne_false] at h
    exact .id h
  app operands joins ty h := by
    obtain ⟨tys, rank, hargs⟩ := hasTy_app_iff.1 h
    exact joins.hasTy rank (forall₂_trans (fun ht he => ht.2 _ he) operands.flip hargs)

/-- Wherever `+`, `*` or `=>` has one operand, the term that is read from it has the sort of the
operator. -/
def LoneSorted (sig : Signature) (ctx : Context) : Sexp → Prop :=
  EveryApp fun head args => ∀ a ty, args = [a] → (Operator.ofSymbol head).lone? = some ty →
    ∃ t, Term.ofSexp a = .ok t ∧ t.sortOf sig ctx = .ok ty

/-- In a well-sorted tree a lone operand has the sort of its operator. -/
theorem readingCases_loneSorted :
    Term.ReadingCases fun e _ => ∀ ty, HasTy sig ctx e ty → LoneSorted sig ctx e where
  numeral _ _ _ := everyApp_atom _
  minus _ operand ty h := by
    obtain ⟨tys, -, hargs⟩ := hasTy_app_iff.1 h
    obtain _ | ⟨he, _⟩ := hargs
    exact everyApp_app_iff.2 ⟨nofun, List.forall_mem_singleton.2 (operand _ he)⟩
  true_ _ _ := everyApp_atom _
  false_ _ _ := everyApp_atom _
  name _ _ _ _ := everyApp_atom _
  app operands _ ty h := by
    obtain ⟨tys, rank, hargs⟩ := hasTy_app_iff.1 h
    refine everyApp_app_iff.2 ⟨?_, fun e he => ?_⟩
    · rintro a ty' rfl hlone
      obtain _ | ⟨ha, _ | _⟩ := hargs
      obtain ⟨rfl, rfl⟩ := rank.eq_of_lone? hlone
      obtain _ | ⟨⟨read, -⟩, -⟩ := operands
      exact ⟨_, read, (readingCases_hasTy.of_ofSexp _ _ read _ ha).sortOf_eq⟩
    · obtain ⟨ty', -, he'⟩ := exists_mem_of_forall₂ hargs he
      obtain ⟨t, -, -, ih⟩ := exists_mem_of_forall₂ operands he
      exact ih ty' he'

/-- A tree that is read as a well-sorted term is well sorted if its lone operands have the sorts of
their operators. -/
theorem readingCases_hasTy_of_loneSorted : Term.ReadingCases fun e t =>
    ∀ ty, Term.HasTy sig ctx t ty → LoneSorted sig ctx e → HasTy sig ctx e ty where
  numeral _ ty typed _ := by
    cases typed
    exact .numeral _
  minus _ operand ty typed h := by
    cases typed
    have he := (everyApp_app_iff.1 h).2 _ List.mem_cons_self
    exact .app (.arith .sub 0) (.cons (operand .int (.int _) he) .nil)
  true_ ty typed _ := by
    cases typed
    exact .symbol rfl
  false_ ty typed _ := by
    cases typed
    exact .symbol rfl
  name ne_true ne_false ty typed _ := by
    cases typed with
    | id hx => exact .symbol ((Context.symbolTy?_of_ne ne_true ne_false).trans hx)
  app operands joins ty typed h := by
    obtain ⟨hlone, hargs⟩ := everyApp_app_iff.1 h
    obtain ⟨tys, rank, hts⟩ := joins.exists_rank typed fun s ty' hs hop => by
      subst hs
      obtain _ | ⟨⟨read, -⟩, _ | _⟩ := operands
      obtain ⟨t, read', ht⟩ := hlone _ ty' rfl hop
      obtain rfl := Except.ok.inj (read.symm.trans read')
      exact Term.hasTy_of_sortOf _ _ ht
    have hsorted := forall₂_of_mem (fun e he t _ ht ty => (ht.2 ty · (hargs e he))) operands
    exact .app rank (forall₂_trans (fun ht => ht _) hsorted hts)

/-- A well-sorted term is read from a well-sorted tree if and only if every lone operand of `+`, `*`
and `=>` in the tree has the sort of the operator. -/
theorem hasTy_iff_loneSorted {e : Sexp} {t : Term} {ty : Ty} (read : Term.ofSexp e = .ok t)
    (sorted : t.sortOf sig ctx = .ok ty) : HasTy sig ctx e ty ↔ LoneSorted sig ctx e :=
  ⟨readingCases_loneSorted.of_ofSexp e t read ty,
    readingCases_hasTy_of_loneSorted.of_ofSexp e t read ty (Term.hasTy_of_sortOf t ty sorted)⟩

/-- The tree `(<= (+ x) (- 3))` is well sorted, since `x` is an integer. -/
theorem hasTy_atMost_lonePlus : HasTy [] (.ofBinders [⟨"x", .int⟩])
    (.app "<=" [.app "+" [.symbol "x"], .app "-" [.numeral 3]]) .bool := by
  have hx : LoneSorted [] (.ofBinders [⟨"x", .int⟩]) (.app "+" [.symbol "x"]) := by
    refine everyApp_app_iff.2 ⟨?_, List.forall_mem_singleton.2 (everyApp_atom _)⟩
    rintro a ty ⟨⟩ ⟨⟩
    exact ⟨.id "x", rfl, rfl⟩
  have hnumeral : LoneSorted [] (.ofBinders [⟨"x", .int⟩]) (.app "-" [.numeral 3]) :=
    everyApp_app_iff.2 ⟨nofun, List.forall_mem_singleton.2 (everyApp_atom _)⟩
  refine (hasTy_iff_loneSorted (t := .compare .le (.id "x") (.int (-3))) rfl rfl).2 ?_
  refine everyApp_app_iff.2 ⟨nofun, List.forall_mem_cons.2 ⟨hx, ?_⟩⟩
  exact List.forall_mem_singleton.2 hnumeral

/-- The tree `(+ true)` is read as `true`. -/
theorem lonePlus_not_hasTy : ∃ t, Term.ofSexp (.app "+" [.symbol "true"]) = .ok t ∧
    t.sortOf [] (.ofBinders []) = .ok .bool ∧
    ¬ HasTy [] (.ofBinders []) (.app "+" [.symbol "true"]) .bool := by
  refine ⟨.bool true, rfl, rfl, fun h => ?_⟩
  obtain ⟨tys, rank, -⟩ := hasTy_app_iff.1 h
  cases rank

end Sexp

end InvariantSearch
