import InvariantSearch.Proofs.ConditionValues

/-!
# Values under a substitution

To replace identifiers by terms and then to evaluate is to evaluate with other values: those of the
terms, computed before anything is replaced (`Term.eval_subst`). This holds of any term, well sorted
or not, and of every error, since operands are evaluated in the same order and none is evaluated
that was not. So a term that stands for one name may have other names in it that are replaced, and
the order of the replacements does not matter (`Term.subst_simultaneous`).
-/

namespace InvariantSearch

/-! ## Names bound to several values -/

/-- Pairs with distinct names may be looked up in any order. -/
theorem lookupLast_perm {α : Type} {pairs pairs' : List (String × α)} (h : pairs.Perm pairs')
    (nodup : (pairs.map Prod.fst).Nodup) : lookupLast pairs = lookupLast pairs' := by
  have nodup' : (pairs'.map Prod.fst).Nodup := (h.map Prod.fst).nodup nodup
  funext x
  refine Option.ext fun a => ⟨fun hx => ?_, fun hx => ?_⟩
  · exact lookupLast_of_mem nodup' (h.mem_iff.1 (mem_of_lookupLast hx))
  · exact lookupLast_of_mem nodup (h.mem_iff.2 (mem_of_lookupLast hx))

namespace Assignment

/-- Gives names values, one after the other. -/
def insertAll (a : Assignment) (pairs : List (String × Value)) : Assignment :=
  pairs.foldl (fun a p => a.insert p.1 p.2) a

theorem get?_insertAll (a : Assignment) (pairs : List (String × Value)) (x : String) :
    (a.insertAll pairs).get? x = (lookupLast pairs x).or (a.get? x) := by
  induction pairs using List.reverseRecOn with
  | nil => rfl
  | append_singleton pairs p ih =>
    rw [insertAll, List.foldl_append, List.foldl_cons, List.foldl_nil, ← insertAll, get?_insert,
      lookupLast_append, ih]
    by_cases hp : p.1 = x <;> simp [lookupLast, hp]

end Assignment

/-! ## The substitution lemma -/

namespace Term

variable {σ : Substitution} {env env' : String → Option Value}

mutual

/-- A term in which identifiers are replaced has the value, or the error, that it has where the
identifiers have the values of what replaces them. -/
theorem eval_subst (hσ : ∀ x, ((σ x).getD (.id x)).eval env = (Term.id x).eval env') :
    (t : Term) → (t.subst σ).eval env = t.eval env'
  | .bool _ | .int _ => rfl
  | .id x => hσ x
  | .app _ _ => by rw [subst, eval, eval]
  | .unary op t => by cases op <;> rw [subst, eval, eval, eval_subst hσ t]
  | .binary op s t => by cases op <;> rw [subst, eval, eval, eval_subst hσ s, eval_subst hσ t]
  | .nary _ ts => by rw [subst, eval_nary, eval_nary, results_substAll hσ ts]
  | .arith _ s t | .compare _ s t => by
    rw [subst, eval, eval, eval_subst hσ s, eval_subst hσ t]
  | .ite c t e => by
    rw [subst, eval, eval, eval_subst hσ c, eval_subst hσ t, eval_subst hσ e]

theorem results_substAll (hσ : ∀ x, ((σ x).getD (.id x)).eval env = (Term.id x).eval env') :
    (ts : List Term) → (substAll σ ts).map (eval env) = ts.map (eval env')
  | [] => rfl
  | t :: ts => by
    rw [substAll, List.map_cons, List.map_cons, eval_subst hσ t, results_substAll hσ ts]

end

/-- The identifiers that are replaced have the values of their terms, and the others the values they
had. -/
theorem eval_subst_of_values (t : Term)
    (hvalues : ∀ x u, σ x = some u → ∃ v, u.eval env = .ok v ∧ env' x = some v)
    (hothers : ∀ x, σ x = none → env' x = env x) : (t.subst σ).eval env = t.eval env' := by
  refine t.eval_subst fun x => ?_
  cases hx : σ x with
  | none => rw [Option.getD_none, eval, eval, hothers x hx]
  | some u =>
    obtain ⟨v, hu, hv⟩ := hvalues x u hx
    rw [Option.getD_some, hu, eval, hv]

end Term

/-- An identifier, the term that replaces it, and the value of the term. -/
structure Replacement where
  name : String
  term : Term
  value : Value

namespace Replacement

/-- The substitution of the terms. -/
def subst (rs : List Replacement) : Substitution := .ofList (rs.map fun r => (r.name, r.term))

/-- The values by name. -/
def values (rs : List Replacement) : List (String × Value) := rs.map fun r => (r.name, r.value)

/-- The last replacement of a name. -/
def find? (rs : List Replacement) : String → Option Replacement :=
  lookupLast (rs.map fun r => (r.name, r))

variable {rs rs' : List Replacement} {r : Replacement} {x : String}

theorem subst_eq : subst rs x = (find? rs x).map term := by
  rw [subst, Substitution.ofList_eq, find?, ← lookupLast_map, List.map_map]
  rfl

theorem lookupLast_values : lookupLast (values rs) x = (find? rs x).map value := by
  rw [values, find?, ← lookupLast_map, List.map_map]
  rfl

theorem mem_of_find? (h : find? rs x = some r) : r ∈ rs := by
  obtain ⟨r', hr', heq⟩ := List.mem_map.1 (mem_of_lookupLast h)
  obtain ⟨-, rfl⟩ := Prod.mk.inj heq
  exact hr'

/-- Replacements of distinct names may come in any order. -/
theorem subst_perm (h : rs.Perm rs') (nodup : (rs.map name).Nodup) : subst rs' = subst rs := by
  refine (lookupLast_perm (h.map _) ?_).symm
  rwa [List.map_map]

end Replacement

/-- If each term that replaces an identifier has a value, then a term evaluates after the
substitution as it does where these identifiers are bound to those values: the results are the same,
be they values or errors. The values are computed in the given assignment, so for finitely many
replacements with distinct names their order does not matter. -/
theorem Term.subst_simultaneous (t : Term) (a : Assignment) :
    (∀ (σ : Substitution) (a' : Assignment),
      (∀ x u, σ x = some u → ∃ v, u.eval a.get? = .ok v ∧ a'.get? x = some v) →
      (∀ x, σ x = none → a'.get? x = a.get? x) →
      (t.subst σ).eval a.get? = t.eval a'.get?) ∧
    ∀ rs : List Replacement, (∀ r ∈ rs, r.term.eval a.get? = .ok r.value) →
      (t.subst (Replacement.subst rs)).eval a.get? =
        t.eval (a.insertAll (Replacement.values rs)).get? ∧
      ((rs.map Replacement.name).Nodup → ∀ rs', rs.Perm rs' →
        t.subst (Replacement.subst rs') = t.subst (Replacement.subst rs)) := by
  refine ⟨fun σ a' => t.eval_subst_of_values, fun rs hrs => ⟨?_, fun nodup rs' hperm => ?_⟩⟩
  · refine t.eval_subst_of_values (fun x u hx => ?_) fun x hx => ?_
    · rw [Replacement.subst_eq] at hx
      obtain ⟨r, hr, rfl⟩ := Option.map_eq_some_iff.1 hx
      refine ⟨r.value, hrs r (Replacement.mem_of_find? hr), ?_⟩
      rw [Assignment.get?_insertAll, Replacement.lookupLast_values, hr]
      rfl
    · rw [Replacement.subst_eq, Option.map_eq_none_iff] at hx
      rw [Assignment.get?_insertAll, Replacement.lookupLast_values, hx]
      rfl
  · rw [Replacement.subst_perm hperm nodup]

/-- Where x is 1 and y is 2, x and y are exchanged. Then x is not less than y, and the other operand
of the choice has a variable without a value. -/
theorem Term.subst_simultaneous_exchange :
    let a : Assignment := .ofList [("x", .int 1), ("y", .int 2)]
    let rs : List Replacement := [⟨"x", .id "y", .int 2⟩, ⟨"y", .id "x", .int 1⟩]
    let t : Term := .ite (.compare .lt (.id "x") (.id "y")) (.app "f" [.id "x"])
      (.arith .add (.id "x") (.id "z"))
    (∀ r ∈ rs, r.term.eval a.get? = .ok r.value) ∧
      (t.subst (Replacement.subst rs)).eval a.get? = .error (.unassigned "z") ∧
      t.subst (Replacement.subst rs.reverse) = t.subst (Replacement.subst rs) := by
  intro a rs t
  have hrs : ∀ r ∈ rs, r.term.eval a.get? = .ok r.value := by
    simp only [rs, List.forall_mem_cons]
    exact ⟨rfl, rfl, by simp⟩
  obtain ⟨heval, hperm⟩ := (t.subst_simultaneous a).2 rs hrs
  exact ⟨hrs, heval.trans rfl, hperm (by decide) rs.reverse (List.reverse_perm rs).symm⟩

end InvariantSearch
