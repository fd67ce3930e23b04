import InvariantSearch.Proofs.Meaning
import InvariantSearch.Synthesis.Problem

/-!
# The meaning of definitions

Definitions are read in order, and each may call those before it (`Interpretation.ofDefs`). A
problem keeps its definitions with all calls replaced. Such definitions have no calls left
(`FunDef.Closed`), and they mean what the definitions meant as they were given: `Implements` says so
of all definitions of a problem, and `Implements.snoc` that one more definition keeps it.
-/

namespace InvariantSearch

/-! ## Definitions as functions -/

/-- The valuation of the parameters by arguments. -/
def Valuation.ofArgs (params : List Binder) (args : List Datum) : Valuation :=
  lookupLast ((params.map (·.name)).zip args)

theorem Valuation.ofArgs_fits {params : List Binder} {args : List Datum}
    (h : args.map Datum.ty = params.map (·.ty)) :
    (Valuation.ofArgs params args).Fits (.ofBinders params) := by
  intro x ty hx
  rw [Context.ofBinders_eq, ← List.zip_map', ← h] at hx
  obtain ⟨v, hv, hmem⟩ := lookupLast_zip args (by simp) hx
  refine ⟨v, hv, ?_⟩
  rw [List.zip_map_left] at hmem
  obtain ⟨p, hp, heq⟩ := List.mem_map.1 hmem
  obtain ⟨h1, rfl⟩ := Prod.mk.inj heq
  obtain ⟨i, hi, rfl⟩ := List.mem_iff_getElem.1 hp
  simpa using h1

/-- The value of a definition at arguments, which have to have the sorts of the parameters. -/
def FunDef.meaning (I : Interpretation) (d : FunDef) (args : List Datum) : Option Datum :=
  if args.map Datum.ty = d.params.map (·.ty) then d.body.meaning I (.ofArgs d.params args) else none

/-- The interpretation with one more function, which may call the others. -/
def Interpretation.extend (I : Interpretation) (d : FunDef) : Interpretation := fun f args =>
  if f = d.name then d.meaning I args else I f args

/-- The functions that are defined one after the other, where each may call those before it. -/
def Interpretation.ofDefs (ds : List FunDef) : Interpretation := ds.foldl extend empty

@[simp] theorem Interpretation.ofDefs_append (ds : List FunDef) (d : FunDef) :
    ofDefs (ds ++ [d]) = (ofDefs ds).extend d := by
  simp [ofDefs]

/-! ## Definitions without calls -/

theorem Substitution.ofList_eq (pairs : List (String × Term)) :
    Substitution.ofList pairs = lookupLast pairs :=
  rfl

/-- The body of the definition has the declared sort without any functions in scope. -/
def FunDef.Closed (d : FunDef) : Prop := Term.HasTy [] (.ofBinders d.params) d.body d.ret

namespace FunDef

variable {d : FunDef} {I I' : Interpretation} {ρ : Valuation} {ctx : Context}

/-- The meaning of a definition depends on the functions in scope alone. -/
theorem meaning_congr {sig : Signature} (h : Term.HasTy sig (.ofBinders d.params) d.body d.ret)
    (hI : ∀ f decl, sig.find? f = some decl → I f = I' f) : d.meaning I = d.meaning I' := by
  funext args
  unfold FunDef.meaning
  rw [h.meaning_congr hI fun _ _ _ => rfl]

theorem Closed.meaning_congr (h : d.Closed) : d.meaning I = d.meaning I' :=
  FunDef.meaning_congr h fun f decl hf => by simp [Signature.find?] at hf

theorem Closed.exists_meaning (h : d.Closed) {args : List Datum}
    (htys : args.map Datum.ty = d.params.map (·.ty)) :
    ∃ v, d.meaning .empty args = some v ∧ v.ty = d.ret := by
  rw [FunDef.meaning, if_pos htys]
  exact Term.HasTy.exists_meaning h Interpretation.empty_fits (Valuation.ofArgs_fits htys)

/-- The body at arguments of the parameters' sorts has the declared sort. -/
theorem Closed.hasTy_unfold (h : d.Closed) {args : List Term}
    (length : d.params.length = args.length)
    (typed : ∀ p ∈ (d.params.map (·.ty)).zip args, Term.HasTy [] ctx p.2 p.1) :
    Term.HasTy [] ctx (d.unfold args) d.ret := by
  refine Term.HasTy.subst h fun x ty hx => ?_
  rw [Context.ofBinders_eq, ← List.zip_map'] at hx
  obtain ⟨arg, harg, hmem⟩ := lookupLast_zip args (by simpa using length) hx
  rw [instantiation, Substitution.ofList_eq, harg]
  exact typed _ hmem

/-- The body at arguments means what the definition means at their values. -/
theorem Closed.meaning_unfold (h : d.Closed) {args : List Term} {vs : List Datum}
    (hvs : Term.meanings I ρ args = some vs) (htys : vs.map Datum.ty = d.params.map (·.ty)) :
    (d.unfold args).meaning I ρ = d.meaning I vs := by
  have length : d.params.length = args.length := by
    rw [← Term.length_of_meanings hvs, ← List.length_map (f := Datum.ty), htys, List.length_map]
  rw [FunDef.meaning, if_pos htys, unfold, Term.meaning_subst]
  refine Term.HasTy.meaning_congr h (fun _ _ _ => rfl) fun x ty hx => ?_
  rw [Context.ofBinders_eq, ← List.zip_map'] at hx
  obtain ⟨arg, harg, -⟩ := lookupLast_zip args (by simpa using length) hx
  obtain ⟨v, hv, hmem⟩ := lookupLast_zip vs (Term.length_of_meanings hvs).symm harg
  rw [instantiation, Substitution.ofList_eq, harg, Valuation.ofArgs, hv]
  exact Term.meaning_of_mem_zip hvs hmem

end FunDef

/-! ## Replacing calls -/

/-- Where names are distinct, every definition is found. -/
theorem findDef?_of_mem {defs : List FunDef} (nodup : (defs.map (·.name)).Nodup) {d : FunDef}
    (hd : d ∈ defs) : findDef? defs d.name = some d := by
  cases hfind : findDef? defs d.name with
  | none =>
    have hne := List.find?_eq_none.1 hfind d (List.mem_reverse.2 hd)
    simp at hne
  | some d' =>
    have hname : d'.name = d.name := by simpa using List.find?_some hfind
    have hd' := List.mem_reverse.1 (List.mem_of_find?_eq_some hfind)
    rw [List.inj_on_of_nodup_map nodup hd' hd hname]

/-- The definitions have no calls and different names, and they are what the interpretation says. -/
structure Implements (J : Interpretation) (defs : List FunDef) : Prop where
  closed : ∀ d ∈ defs, d.Closed
  nodup : (defs.map (·.name)).Nodup
  value : ∀ d ∈ defs, J d.name = d.meaning .empty

namespace Implements

variable {J : Interpretation} {defs : List FunDef}

theorem nil : Implements .empty [] :=
  ⟨by simp, by simp, by simp⟩

/-- Two definitions of one name are the same. -/
theorem eq_of_name (h : Implements J defs) {d d' : FunDef} (hd : d ∈ defs) (hd' : d' ∈ defs)
    (name : d.name = d'.name) : d = d' :=
  List.inj_on_of_nodup_map h.nodup hd hd' name

/-- The definition of a function in scope. -/
theorem exists_def (h : Implements J defs) {f : String} {decl : FunDecl}
    (hf : Signature.find? (defs.map FunDef.decl) f = some decl) :
    ∃ d ∈ defs, d.name = f ∧ d.decl = decl ∧ findDef? defs f = some d := by
  obtain ⟨d, hd, rfl⟩ := List.mem_map.1 (List.mem_of_find?_eq_some hf)
  obtain rfl : d.decl.name = f := by simpa using List.find?_some hf
  exact ⟨d, hd, rfl, rfl, findDef?_of_mem h.nodup hd⟩

/-- The interpretation gives the functions in scope values of their sorts. -/
theorem fits (h : Implements J defs) : J.Fits (defs.map FunDef.decl) := by
  intro f decl vs hf htys
  obtain ⟨d, hd, rfl, rfl, -⟩ := h.exists_def hf
  rw [h.value d hd]
  exact (h.closed d hd).exists_meaning htys

variable {t : Term} {ty : Ty} {ctx : Context} {ρ : Valuation}

/-- The call of a definition is replaced by the body alone, which has no calls itself. -/
theorem inlineTo_unfold (h : Implements J defs) {d : FunDef} (hd : d ∈ defs) {args : List Term}
    (depth : Nat) (length : d.decl.params.length = args.length)
    (typed : ∀ p ∈ d.decl.params.zip args, Term.HasTy [] ctx p.2 p.1) :
    Term.inlineTo defs depth (d.unfold args) = d.unfold args := by
  cases depth with
  | zero => rfl
  | succ depth =>
    exact ((h.closed d hd).hasTy_unfold (by simpa [FunDef.decl] using length) typed).mapCalls_eq

/-- What stands for a call has the declared sort. -/
theorem hasTy_call (h : Implements J defs) (depth : Nat) (f : String) (decl : FunDecl)
    (args : List Term) (hf : Signature.find? (defs.map FunDef.decl) f = some decl)
    (length : decl.params.length = args.length)
    (typed : ∀ p ∈ decl.params.zip args, Term.HasTy [] ctx p.2 p.1) :
    Term.HasTy [] ctx
      (match findDef? defs f with
        | some d => Term.inlineTo defs depth (d.unfold args)
        | none => .app f args) decl.ret := by
  obtain ⟨d, hd, -, rfl, hfind⟩ := h.exists_def hf
  rw [hfind]
  show Term.HasTy [] ctx (Term.inlineTo defs depth (d.unfold args)) d.ret
  rw [h.inlineTo_unfold hd depth length typed]
  exact (h.closed d hd).hasTy_unfold (by simpa [FunDef.decl] using length) typed

/-- Replacing the calls of a term keeps its sort, and no calls are left. -/
theorem hasTy_inline (h : Implements J defs) (ht : Term.HasTy (defs.map FunDef.decl) ctx t ty) :
    Term.HasTy [] ctx (t.inline defs) ty := by
  unfold Term.inline
  cases hdepth : defs.length with
  | zero =>
    obtain rfl := List.length_eq_zero_iff.1 hdepth
    exact ht
  | succ depth => exact ht.mapCalls (h.hasTy_call depth)

/-- More definitions do not change what the calls of a term are replaced by. -/
theorem inline_congr {J' : Interpretation} {defs' : List FunDef} (h : Implements J defs)
    (h' : Implements J' defs') (hsub : defs ⊆ defs')
    (ht : Term.HasTy (defs.map FunDef.decl) ctx t ty) : t.inline defs = t.inline defs' := by
  unfold Term.inline
  cases hdepth : defs.length with
  | zero =>
    obtain rfl := List.length_eq_zero_iff.1 hdepth
    cases defs'.length with
    | zero => rfl
    | succ depth => exact ht.mapCalls_eq.symm
  | succ depth =>
    have hpos : 0 < defs.length := by omega
    obtain ⟨d, hd⟩ := List.exists_mem_of_length_pos hpos
    obtain ⟨depth', hdepth'⟩ : ∃ n, defs'.length = n + 1 :=
      Nat.exists_eq_add_one.2 (List.length_pos_of_mem (hsub hd))
    rw [hdepth']
    refine ht.mapCalls_congr (h.hasTy_call depth) fun f decl args hf length typed => ?_
    obtain ⟨d, hd, rfl, rfl, hfind⟩ := h.exists_def hf
    rw [hfind, findDef?_of_mem h'.nodup (hsub hd)]
    exact (h.inlineTo_unfold hd depth length typed).trans
      (h'.inlineTo_unfold (hsub hd) depth' length typed).symm

/-- Replacing the calls of a term keeps the value that it has. -/
theorem meaning_inline_of_some (h : Implements J defs)
    (ht : Term.HasTy (defs.map FunDef.decl) ctx t ty) {v : Datum} (hv : t.meaning J ρ = some v) :
    (t.inline defs).meaning .empty ρ = some v := by
  unfold Term.inline
  cases hdepth : defs.length with
  | zero =>
    obtain rfl := List.length_eq_zero_iff.1 hdepth
    rw [← hv]
    exact Term.HasTy.meaning_congr ht (fun f decl hf => by simp [Signature.find?] at hf)
      fun _ _ _ => rfl
  | succ depth =>
    refine ht.meaning_mapCalls (h.hasTy_call depth)
      (fun f decl args vs v hf length typed hvs hv => ?_) hv
    obtain ⟨d, hd, rfl, rfl, hfind⟩ := h.exists_def hf
    rw [h.value d hd] at hv
    have htys : vs.map Datum.ty = d.params.map (·.ty) := by
      by_contra hne
      rw [FunDef.meaning, if_neg hne] at hv
      cases hv
    rw [hfind]
    show (Term.inlineTo defs depth (d.unfold args)).meaning .empty ρ = _
    rw [h.inlineTo_unfold hd depth length typed, (h.closed d hd).meaning_unfold hvs htys, hv]

/-- Replacing the calls of a term keeps its meaning where all variables in scope have values. -/
theorem meaning_inline (h : Implements J defs) (ht : Term.HasTy (defs.map FunDef.decl) ctx t ty)
    (hρ : ρ.Fits ctx) : (t.inline defs).meaning .empty ρ = t.meaning J ρ := by
  obtain ⟨v, hv, -⟩ := ht.exists_meaning h.fits hρ
  rw [hv, h.meaning_inline_of_some ht hv]

/-- One more definition, whose body may call the others, with its calls replaced. -/
theorem snoc (h : Implements J defs) {d : FunDef} (fresh : ∀ d' ∈ defs, d'.name ≠ d.name)
    (ht : Term.HasTy (defs.map FunDef.decl) (.ofBinders d.params) d.body d.ret) :
    Implements (J.extend d) (defs ++ [d.inline defs]) where
  closed d' hd' := by
    rcases List.mem_append.1 hd' with hd' | hd'
    · exact h.closed d' hd'
    · obtain rfl := List.mem_singleton.1 hd'
      exact h.hasTy_inline ht
  nodup := nodup_map_concat h.nodup fresh
  value d' hd' := by
    funext args
    rcases List.mem_append.1 hd' with hd' | hd'
    · rw [Interpretation.extend, if_neg (fresh d' hd'), h.value d' hd']
    · obtain rfl := List.mem_singleton.1 hd'
      rw [Interpretation.extend, if_pos (show (d.inline defs).name = d.name from rfl)]
      unfold FunDef.meaning
      have hparams : (d.inline defs).params = d.params := rfl
      rw [hparams]
      by_cases htys : args.map Datum.ty = d.params.map (·.ty)
      · rw [if_pos htys, if_pos htys]
        exact (h.meaning_inline ht (Valuation.ofArgs_fits htys)).symm
      · rw [if_neg htys, if_neg htys]

end Implements

end InvariantSearch
