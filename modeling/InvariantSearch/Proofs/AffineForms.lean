import InvariantSearch.Proofs.Fragments
import InvariantSearch.Proofs.Meaning
import Mathlib.Data.List.ProdSigma
import Mathlib.LinearAlgebra.Finsupp.LinearCombination
import Mathlib.LinearAlgebra.Prod

/-!
# Linear arithmetic is piecewise affine

Linear arithmetic admits a product only with a factor that is a literal, possibly negated. So the
value of an integer term is affine in the variables once its choices are made: the term has finitely
many affine forms (`Term.affineForms`), and under every assignment its value is that of one of them
(`HasTy.exists_affineForm`). In every logic a term stays admitted if admitted terms are put for its
identifiers (`Logic.Admitted.subst_ids`). The two results together are `linear_and_substitutive`.
-/

namespace InvariantSearch

/-! ## Affine forms -/

/-- An integer coefficient for each of finitely many variables, and a constant. -/
abbrev AffineForm := (String →₀ ℤ) × ℤ

/-- The integer of a variable; zero where there is none. -/
def Valuation.number (ρ : Valuation) (x : String) : Int :=
  match ρ x with
  | some (.int n) => n
  | _ => 0

namespace AffineForm

/-- The form that is the variable. -/
noncomputable def var (x : String) : AffineForm := (Finsupp.single x 1, 0)

/-- The form that is the number. -/
def const (n : Int) : AffineForm := (0, n)

/-- The value of a form, which is linear in the coefficients and the constant. -/
noncomputable def value (ρ : Valuation) : AffineForm →ₗ[ℤ] ℤ :=
  (Finsupp.linearCombination ℤ ρ.number).coprod LinearMap.id

/-- The forms in which only integer variables in scope have coefficients. -/
noncomputable def inScope (ctx : Context) : Submodule ℤ AffineForm :=
  (Finsupp.supported ℤ ℤ {x | ctx x = some .int}).prod ⊤

variable {ρ : Valuation} {ctx : Context}

theorem value_eq (f : AffineForm) : value ρ f = (f.1.sum fun x c => c * ρ.number x) + f.2 := by
  simp [value, Finsupp.linearCombination_apply]

theorem mem_inScope_iff {f : AffineForm} :
    f ∈ inScope ctx ↔ ∀ x, f.1 x ≠ 0 → ctx x = some .int := by
  simp [inScope, Submodule.mem_prod, Finsupp.mem_supported, Set.subset_def]

@[simp] theorem value_const (n : Int) : value ρ (const n) = n := by
  simp [value_eq, const]

theorem value_var {x : String} {n : Int} (h : ρ x = some (.int n)) : value ρ (var x) = n := by
  simp [value_eq, var, Valuation.number, h]

theorem const_mem_inScope (n : Int) : const n ∈ inScope ctx := by
  simp [mem_inScope_iff, const]

theorem var_mem_inScope {x : String} (h : ctx x = some .int) : var x ∈ inScope ctx := by
  rw [mem_inScope_iff]
  intro y hy
  obtain rfl : x = y := (Finsupp.single_apply_ne_zero.1 hy).1.symm
  exact h

end AffineForm

/-! ## The forms of a term -/

namespace Term

/-- The number of a literal that may be negated; zero for other terms. -/
def constantValue : Term → Int
  | .int i => i.toInt
  | .unary .neg t => -constantValue t
  | _ => 0

/-- The affine forms of an integer term, one for each way in which its choices can be made. -/
noncomputable def affineForms : Term → List AffineForm
  | .int i => [.const i.toInt]
  | .id x => [.var x]
  | .unary .neg t => t.affineForms.map (-·)
  | .arith .add s t => (s.affineForms ×ˢ t.affineForms).map fun p => p.1 + p.2
  | .arith .sub s t => (s.affineForms ×ˢ t.affineForms).map fun p => p.1 - p.2
  | .arith .mul s t =>
    if s.isConstant then t.affineForms.map (s.constantValue • ·)
    else s.affineForms.map (t.constantValue • ·)
  | .ite _ t e => t.affineForms ++ e.affineForms
  | _ => []

variable {ctx : Context} {ρ : Valuation}

theorem meaning_of_isConstant {I : Interpretation} : (t : Term) → t.isConstant = true →
    t.meaning I ρ = some (.int t.constantValue)
  | .int _, _ => rfl
  | .unary .neg t, h => by
    rw [meaning, meaning_of_isConstant t h]
    rfl

theorem constantValue_eq {I : Interpretation} {t : Term} {n : Int} (h : t.isConstant = true)
    (hn : t.meaning I ρ = some (.int n)) : t.constantValue = n :=
  Datum.int.inj (Option.some.inj ((meaning_of_isConstant t h).symm.trans hn))

/-- In linear arithmetic, the second factor is a literal where the first is none. -/
theorem isConstant_of_product {s t : Term} (h : Logic.lia.AllowsProduct s t)
    (hs : ¬s.isConstant = true) : t.isConstant = true := by
  rcases h with h | h | h
  · cases h
  · exact absurd h hs
  · exact h

/-- Only integer variables in scope have coefficients in the forms of a term. -/
theorem HasTy.affineForms_inScope {t : Term} {ty : Ty} (h : HasTy [] ctx t ty) (hty : ty = .int) :
    ∀ f ∈ t.affineForms, f ∈ AffineForm.inScope ctx := by
  induction h with
  | int i => exact List.forall_mem_singleton.2 (AffineForm.const_mem_inScope _)
  | id hx =>
    subst hty
    exact List.forall_mem_singleton.2 (AffineForm.var_mem_inScope hx)
  | neg _ ih => exact List.forall_mem_map.2 fun f hf => neg_mem (ih rfl f hf)
  | @arith op s t _ _ ihs iht =>
    cases op with
    | add =>
      refine List.forall_mem_map.2 fun p hp => ?_
      obtain ⟨hs, ht⟩ := List.mem_product.1 hp
      exact add_mem (ihs rfl p.1 hs) (iht rfl p.2 ht)
    | sub =>
      refine List.forall_mem_map.2 fun p hp => ?_
      obtain ⟨hs, ht⟩ := List.mem_product.1 hp
      exact sub_mem (ihs rfl p.1 hs) (iht rfl p.2 ht)
    | mul =>
      rw [affineForms]
      split
      next => exact List.forall_mem_map.2 fun f hf => Submodule.smul_mem _ _ (iht rfl f hf)
      next => exact List.forall_mem_map.2 fun f hf => Submodule.smul_mem _ _ (ihs rfl f hf)
  | ite _ _ _ _ iht ihe =>
    intro f hf
    rcases List.mem_append.1 hf with hf | hf
    · exact iht hty f hf
    · exact ihe hty f hf
  | app | bool | not | equals | implies | nary | compare => simp [affineForms]

/-- The value of an admitted term is that of one of its forms. -/
theorem HasTy.exists_affineForm {t : Term} {ty : Ty} (h : HasTy [] ctx t ty) (hty : ty = .int)
    (admitted : Logic.lia.Admitted t) (hρ : ρ.Fits ctx) :
    ∃ f ∈ t.affineForms, t.meaning .empty ρ = some (.int (AffineForm.value ρ f)) := by
  induction h with
  | int i => exact ⟨.const i.toInt, List.mem_singleton_self _, by simp [meaning]⟩
  | @id x ty hx =>
    subst hty
    obtain ⟨v, hv, hint⟩ := hρ x _ hx
    obtain ⟨n, rfl⟩ := Datum.exists_int hint
    exact ⟨.var x, List.mem_singleton_self _, by rw [meaning, hv, AffineForm.value_var hv]⟩
  | app hf => simp [Signature.find?] at hf
  | neg _ ih =>
    cases admitted with
    | neg _ ht =>
      obtain ⟨f, hf, hvalue⟩ := ih rfl ht
      refine ⟨-f, List.mem_map_of_mem hf, ?_⟩
      rw [meaning, hvalue, map_neg]
      rfl
  | @arith op s t _ _ ihs iht =>
    cases admitted with
    | arith _ product hs ht =>
      obtain ⟨f, hf, hvalue⟩ := ihs rfl hs
      obtain ⟨g, hg, hvalue'⟩ := iht rfl ht
      have hmeaning : (Term.arith op s t).meaning .empty ρ =
          some (.int (op.apply (AffineForm.value ρ f) (AffineForm.value ρ g))) := by
        rw [meaning, hvalue, hvalue']
        rfl
      have hpair : (f, g) ∈ s.affineForms ×ˢ t.affineForms := List.pair_mem_product.2 ⟨hf, hg⟩
      cases op with
      | add =>
        refine ⟨f + g, List.mem_map_of_mem hpair, ?_⟩
        rw [hmeaning, map_add]
        rfl
      | sub =>
        refine ⟨f - g, List.mem_map_of_mem hpair, ?_⟩
        rw [hmeaning, map_sub]
        rfl
      | mul =>
        rw [affineForms]
        split
        next hconstant =>
          -- Every form of the literal has its value, so the other factor's form is scaled by it.
          refine ⟨s.constantValue • g, List.mem_map_of_mem hg, ?_⟩
          rw [hmeaning, map_smul, constantValue_eq hconstant hvalue]
          rfl
        next hconstant =>
          have ht : t.isConstant = true := isConstant_of_product (product rfl) hconstant
          refine ⟨t.constantValue • f, List.mem_map_of_mem hf, ?_⟩
          rw [hmeaning, map_smul, constantValue_eq ht hvalue', smul_eq_mul, mul_comm]
          rfl
  | ite hc _ _ _ iht ihe =>
    cases admitted with
    | ite _ ht he =>
      obtain ⟨v, hv, hbool⟩ := hc.exists_meaning Interpretation.empty_fits hρ
      obtain ⟨b, rfl⟩ := Datum.exists_bool hbool
      obtain ⟨f, hf, hvalue⟩ := iht hty ht
      obtain ⟨g, hg, hvalue'⟩ := ihe hty he
      -- The condition has a truth value, which picks the branch and with it the form.
      cases b with
      | true =>
        refine ⟨f, List.mem_append_left _ hf, ?_⟩
        rw [meaning, hv, hvalue, hvalue']
        rfl
      | false =>
        refine ⟨g, List.mem_append_right _ hg, ?_⟩
        rw [meaning, hv, hvalue, hvalue']
        rfl
  | bool | not | equals | implies | nary | compare => cases hty

/-! ## Substitution for a term's own identifiers -/

mutual

/-- A substitution matters at the identifiers of the term alone. -/
theorem subst_congr {σ τ : Substitution} : (t : Term) → (∀ x ∈ t.ids, σ x = τ x) →
    t.subst σ = t.subst τ
  | .bool _, _ | .int _, _ => rfl
  | .id x, h => by rw [subst, subst, h x (List.mem_singleton_self x)]
  | .app f ts, h | .nary f ts, h => by rw [subst, subst, substAll_congr ts h]
  | .unary _ t, h => by rw [subst, subst, subst_congr t h]
  | .binary _ s t, h | .arith _ s t, h | .compare _ s t, h => by
    have hids : ∀ x ∈ s.ids ++ t.ids, σ x = τ x := prependIds_eq t.ids s ▸ h
    rw [List.forall_mem_append] at hids
    rw [subst, subst, subst_congr s hids.1, subst_congr t hids.2]
  | .ite c t e, h => by
    have hids : ∀ x ∈ c.ids ++ (t.ids ++ e.ids), σ x = τ x :=
      prependIds_eq e.ids t ▸ prependIds_eq _ c ▸ h
    rw [List.forall_mem_append, List.forall_mem_append] at hids
    rw [subst, subst, subst_congr c hids.1, subst_congr t hids.2.1, subst_congr e hids.2.2]

theorem substAll_congr {σ τ : Substitution} : (ts : List Term) →
    (∀ x ∈ prependAllIds [] ts, σ x = τ x) → substAll σ ts = substAll τ ts
  | [], _ => rfl
  | t :: ts, h => by
    have hids : ∀ x ∈ t.ids ++ prependAllIds [] ts, σ x = τ x := prependIds_eq _ t ▸ h
    rw [List.forall_mem_append] at hids
    rw [substAll, substAll, subst_congr t hids.1, substAll_congr ts hids.2]

end

end Term

/-- Putting admitted terms for the identifiers of an admitted term keeps it admitted. -/
theorem Logic.Admitted.subst_ids {l : Logic} {t : Term} {σ : Substitution} (h : l.Admitted t)
    (hσ : ∀ x ∈ t.ids, ∀ u, σ x = some u → l.Admitted u) : l.Admitted (t.subst σ) := by
  have heq : t.subst σ = t.subst fun x => if x ∈ t.ids then σ x else none :=
    Term.subst_congr t fun x hx => (if_pos hx).symm
  rw [heq]
  refine h.subst fun x u hu => ?_
  obtain ⟨hx, hu⟩ := Option.ite_none_right_eq_some.1 hu
  exact hσ x hx u hu

/-- An integer term that linear arithmetic admits has under every assignment the value of one of
finitely many affine forms; and in every logic, putting admitted terms for the identifiers of an
admitted term gives an admitted one. -/
theorem Logic.linear_and_substitutive :
    (∀ (ctx : Context) (t : Term), t.sortOf [] ctx = .ok .int → Logic.lia.admits t = .ok () →
      ∃ forms : List AffineForm,
        (∀ f ∈ forms, ∀ x, f.1 x ≠ 0 → ctx x = some .int) ∧
        ∀ ρ : Valuation, ρ.Fits ctx →
          ∃ f ∈ forms, t.meaning .empty ρ = some (.int (AffineForm.value ρ f))) ∧
    ∀ (l : Logic) (t : Term) (σ : Substitution), l.admits t = .ok () →
      (∀ x ∈ t.ids, ∀ u, σ x = some u → l.admits u = .ok ()) → l.admits (t.subst σ) = .ok () := by
  constructor
  · intro ctx t hsort hadmits
    have htyped := Term.sortOf_eq_ok_iff.1 hsort
    have hadmitted := Logic.admits_eq_ok_iff.1 hadmits
    refine ⟨t.affineForms, fun f hf => ?_, fun ρ hρ => ?_⟩
    · exact AffineForm.mem_inScope_iff.1 (htyped.affineForms_inScope rfl f hf)
    · exact htyped.exists_affineForm rfl hadmitted hρ
  · intro l t σ ht hσ
    refine ((Logic.admits_eq_ok_iff.1 ht).subst_ids fun x hx u hu => ?_).admits_eq
    exact Logic.admits_eq_ok_iff.1 (hσ x hx u hu)

/-- A negated literal times a choice. -/
def Term.scaledChoice : Term :=
  .arith .mul (.unary .neg (.int 2)) (.ite (.id "b") (.id "x") (.arith .sub (.id "x") (.id "y")))

theorem Logic.linear_and_substitutive_scaledChoice :
    let ctx : Context := .ofBinders [⟨"b", .bool⟩, ⟨"x", .int⟩, ⟨"y", .int⟩]
    let σ : Substitution := .ofList [("y", .arith .mul (.id "x") (.int 3))]
    (Term.scaledChoice.sortOf [] ctx = .ok .int ∧ Logic.lia.admits .scaledChoice = .ok () ∧
      ∃ forms : List AffineForm,
        (∀ f ∈ forms, ∀ x, f.1 x ≠ 0 → ctx x = some .int) ∧
        ∀ ρ : Valuation, ρ.Fits ctx →
          ∃ f ∈ forms, Term.scaledChoice.meaning .empty ρ = some (.int (AffineForm.value ρ f))) ∧
    (∀ x ∈ Term.scaledChoice.ids, ∀ u, σ x = some u → Logic.lia.admits u = .ok ()) ∧
      Logic.lia.admits (Term.scaledChoice.subst σ) = .ok () := by
  intro ctx σ
  have hsort : Term.scaledChoice.sortOf [] ctx = .ok .int := by rfl
  have hadmits : Logic.lia.admits .scaledChoice = .ok () := by rfl
  have hσ : ∀ x ∈ Term.scaledChoice.ids, ∀ u, σ x = some u → Logic.lia.admits u = .ok () := by
    decide
  obtain ⟨linear, substitutive⟩ := Logic.linear_and_substitutive
  exact ⟨⟨hsort, hadmits, linear ctx .scaledChoice hsort hadmits⟩, hσ,
    substitutive .lia .scaledChoice σ hadmits hσ⟩

end InvariantSearch
