import InvariantSearch.Term.Sorting
import InvariantSearch.Term.Subst
import Mathlib.Data.List.Nodup

/-!
# Well-sorted terms

`Term.HasTy` says by rules which sort a term has. `Term.sortOf` computes just that
(`sortOf_eq_ok_iff`), so what follows is by induction on the rules. A substitution by terms of the
right sorts keeps the sort (`HasTy.subst`), and a term that is well sorted without any functions in
scope has no calls (`HasTy.mapCalls_eq`).

The names in a context are looked up from the end (`lookupLast`), so that of several binders of one
name the last one counts. Where names are distinct every binder does (`Context.ofBinders_of_mem`).
-/

namespace InvariantSearch

/-- A computation with two steps succeeds if both steps do. -/
theorem bind_eq_ok_iff {ε α β : Type} {x : Except ε α} {f : α → Except ε β} {b : β} :
    (x >>= f) = .ok b ↔ ∃ a, x = .ok a ∧ f a = .ok b := by
  cases x <;> simp [bind, Except.bind]

/-- A computation with two steps fails if the first step does, or the second. -/
theorem bind_eq_error_iff {ε α β : Type} {x : Except ε α} {f : α → Except ε β} {err : ε} :
    (x >>= f) = .error err ↔ x = .error err ∨ ∃ a, x = .ok a ∧ f a = .error err := by
  cases x <;> simp [bind, Except.bind]

/-- A computation whose error is reworded succeeds if it does without that. -/
theorem mapError_eq_ok_iff {ε ε' α : Type} {x : Except ε α} {f : ε → ε'} {a : α} :
    x.mapError f = .ok a ↔ x = .ok a := by
  cases x <;> simp [Except.mapError]

theorem Ty.expect_eq_ok_iff {expected found : Ty} {u : Unit} :
    expected.expect found = .ok u ↔ expected = found := by
  unfold Ty.expect
  split <;> simp [*]

/-- What holds of the elements paired with those of another list still does once they are mapped. -/
theorem forall_mem_zip_map {α β γ : Type} {P : α × γ → Prop} {as : List α} {bs : List β} {f : β → γ}
    (h : ∀ q ∈ as.zip bs, P (q.1, f q.2)) : ∀ p ∈ as.zip (bs.map f), P p := by
  intro p hp
  rw [List.zip_map_right] at hp
  obtain ⟨q, hq, rfl⟩ := List.mem_map.1 hp
  exact h q hq

/-- Every element of the second of two lists of one length has a partner. -/
theorem exists_mem_zip {α β : Type} {as : List α} {bs : List β} (h : as.length = bs.length) {b : β}
    (hb : b ∈ bs) : ∃ p ∈ as.zip bs, p.2 = b := by
  have hb' : b ∈ (as.zip bs).map Prod.snd := by rwa [List.map_snd_zip (Nat.le_of_eq h.symm)]
  exact List.mem_map.1 hb'

theorem exists_mem_zip_left {α β : Type} {as : List α} {bs : List β} (h : as.length = bs.length)
    {a : α} (ha : a ∈ as) : ∃ b, (a, b) ∈ as.zip bs := by
  have ha' : a ∈ (as.zip bs).map Prod.fst := by rwa [List.map_fst_zip (Nat.le_of_eq h)]
  obtain ⟨⟨_, b⟩, hp, rfl⟩ := List.mem_map.1 ha'
  exact ⟨b, hp⟩

/-- One more element whose image is new keeps the images distinct. -/
theorem nodup_map_concat {α β : Type} {f : α → β} {as : List α} {a : α} (h : (as.map f).Nodup)
    (fresh : ∀ b ∈ as, f b ≠ f a) : ((as ++ [a]).map f).Nodup := by
  rw [List.map_append, List.nodup_append]
  refine ⟨h, List.nodup_singleton _, fun x hx y hy => ?_⟩
  obtain ⟨b, hb, rfl⟩ := List.mem_map.1 hx
  obtain rfl := List.mem_singleton.1 hy
  exact fresh b hb

/-! ## Looking up names -/

/-- What the last pair with the name holds. -/
def lookupLast {α : Type} (pairs : List (String × α)) (x : String) : Option α :=
  (pairs.reverse.find? (·.1 = x)).map (·.2)

section Lookup

variable {α β : Type} {pairs : List (String × α)} {x : String} {a : α}

theorem lookupLast_map (f : α → β) (pairs : List (String × α)) :
    lookupLast (pairs.map fun p => (p.1, f p.2)) x = (lookupLast pairs x).map f := by
  unfold lookupLast
  rw [← List.map_reverse, List.find?_map, Option.map_map, Option.map_map]
  rfl

theorem mem_of_lookupLast (h : lookupLast pairs x = some a) : (x, a) ∈ pairs := by
  obtain ⟨p, hp, rfl⟩ := Option.map_eq_some_iff.1 h
  have hx : p.1 = x := by simpa using List.find?_some hp
  rw [← hx]
  exact List.mem_reverse.1 (List.mem_of_find?_eq_some hp)

/-- Where names are distinct, every pair is found. -/
theorem lookupLast_of_mem (nodup : (pairs.map Prod.fst).Nodup) (h : (x, a) ∈ pairs) :
    lookupLast pairs x = some a := by
  cases hx : lookupLast pairs x with
  | none =>
    have hnone := List.find?_eq_none.1 (Option.map_eq_none_iff.1 hx) (x, a) (List.mem_reverse.2 h)
    simp at hnone
  | some b =>
    have heq := List.inj_on_of_nodup_map nodup (mem_of_lookupLast hx) h rfl
    rw [(Prod.mk.inj heq).2]

theorem lookupLast_append (pairs pairs' : List (String × α)) (x : String) :
    lookupLast (pairs ++ pairs') x = (lookupLast pairs' x).or (lookupLast pairs x) := by
  unfold lookupLast
  rw [List.reverse_append, List.find?_append]
  cases pairs'.reverse.find? (·.1 = x) <;> rfl

/-- A name that has a partner in one list has one at the same place in another list. -/
theorem lookupLast_zip {names : List String} {as : List α} (bs : List β) {a : α}
    (length : as.length = bs.length) (h : lookupLast (names.zip as) x = some a) :
    ∃ b, lookupLast (names.zip bs) x = some b ∧ (a, b) ∈ as.zip bs := by
  have has : names.zip as = (names.zip (as.zip bs)).map fun p => (p.1, p.2.1) :=
    calc names.zip as = names.zip ((as.zip bs).map Prod.fst) := by
          rw [List.map_fst_zip (Nat.le_of_eq length)]
      _ = _ := List.zip_map_right
  have hbs : names.zip bs = (names.zip (as.zip bs)).map fun p => (p.1, p.2.2) :=
    calc names.zip bs = names.zip ((as.zip bs).map Prod.snd) := by
          rw [List.map_snd_zip (Nat.le_of_eq length.symm)]
      _ = _ := List.zip_map_right
  rw [has, lookupLast_map (fun p : α × β => p.1)] at h
  obtain ⟨p, hp, rfl⟩ := Option.map_eq_some_iff.1 h
  rw [hbs, lookupLast_map (fun p : α × β => p.2), hp]
  exact ⟨p.2, rfl, (List.of_mem_zip (mem_of_lookupLast hp)).2⟩

end Lookup

/-! ## Contexts of binders -/

namespace Context

variable {bs : List Binder} {x : String}

theorem ofBinders_eq (bs : List Binder) :
    ofBinders bs = lookupLast (bs.map fun b => (b.name, b.ty)) := by
  funext x
  rw [lookupLast, ofBinders, ← List.map_reverse, List.find?_map, Option.map_map]
  rfl

theorem exists_of_ofBinders {ty : Ty} (h : ofBinders bs x = some ty) :
    ∃ b ∈ bs, b.name = x ∧ b.ty = ty := by
  rw [ofBinders_eq] at h
  obtain ⟨b, hb, heq⟩ := List.mem_map.1 (mem_of_lookupLast h)
  exact ⟨b, hb, Prod.mk.inj heq⟩

theorem ofBinders_eq_none (h : ∀ b ∈ bs, b.name ≠ x) : ofBinders bs x = none := by
  cases hx : ofBinders bs x with
  | none => rfl
  | some ty =>
    obtain ⟨b, hb, hname, -⟩ := exists_of_ofBinders hx
    exact absurd hname (h b hb)

/-- Where names are distinct, every binder gives its name its sort. -/
theorem ofBinders_of_mem (nodup : (bs.map (·.name)).Nodup) {b : Binder} (hb : b ∈ bs) :
    ofBinders bs b.name = some b.ty := by
  rw [ofBinders_eq]
  refine lookupLast_of_mem ?_ (List.mem_map_of_mem hb)
  rw [List.map_map]
  exact nodup

theorem ofBinders_append (as bs : List Binder) (x : String) :
    ofBinders (as ++ bs) x = (ofBinders bs x).or (ofBinders as x) := by
  rw [ofBinders_eq, ofBinders_eq, ofBinders_eq, List.map_append, lookupLast_append]

end Context

/-- No name occurs again if the names are distinct, and none of them was seen before. -/
theorem firstRepeated?_eq_none_iff {seen : List String} {bs : List Binder} :
    firstRepeated? seen bs = none ↔ (bs.map (·.name)).Nodup ∧ ∀ b ∈ bs, b.name ∉ seen := by
  induction bs generalizing seen with
  | nil => simp [firstRepeated?]
  | cons b bs ih =>
    rw [firstRepeated?]
    by_cases hb : b.name ∈ seen
    · simp [hb]
    · rw [if_neg hb, ih, List.map_cons, List.nodup_cons, List.forall_mem_cons]
      constructor
      · rintro ⟨nodup, hseen⟩
        refine ⟨⟨fun hmem => ?_, nodup⟩, hb, fun c hc hmem => ?_⟩
        · obtain ⟨c, hc, hname⟩ := List.mem_map.1 hmem
          exact hseen c hc (by simp [hname])
        · exact hseen c hc (List.mem_cons_of_mem _ hmem)
      · rintro ⟨⟨hnot, nodup⟩, -, hseen⟩
        refine ⟨nodup, fun c hc hmem => ?_⟩
        rcases List.mem_cons.1 hmem with hname | hmem
        · exact hnot (List.mem_map.2 ⟨c, hc, hname⟩)
        · exact hseen c hc hmem

theorem Context.ofBinders?_eq_ok {bs : List Binder} {ctx : Context}
    (h : Context.ofBinders? bs = .ok ctx) : ctx = ofBinders bs ∧ (bs.map (·.name)).Nodup := by
  unfold ofBinders? at h
  split at h
  next => cases h
  next hnone =>
    obtain rfl := Except.ok.inj h
    exact ⟨rfl, (firstRepeated?_eq_none_iff.1 hnone).1⟩

namespace Term

variable {sig : Signature} {ctx ctx' : Context}

/-! ## The rules -/

/-- The term has the sort, where `sig` tells the functions in scope and `ctx` the variables. -/
inductive HasTy (sig : Signature) (ctx : Context) : Term → Ty → Prop
  | bool (b : Bool) : HasTy sig ctx (.bool b) .bool
  | int (i : Int64) : HasTy sig ctx (.int i) .int
  | id {x : String} {ty : Ty} (h : ctx x = some ty) : HasTy sig ctx (.id x) ty
  | app {f : String} {decl : FunDecl} {args : List Term} (h : sig.find? f = some decl)
      (arity : decl.params.length = args.length)
      (typed : ∀ p ∈ decl.params.zip args, HasTy sig ctx p.2 p.1) :
      HasTy sig ctx (.app f args) decl.ret
  | not {t : Term} (h : HasTy sig ctx t .bool) : HasTy sig ctx (.unary .not t) .bool
  | neg {t : Term} (h : HasTy sig ctx t .int) : HasTy sig ctx (.unary .neg t) .int
  | equals {s t : Term} {ty : Ty} (hs : HasTy sig ctx s ty) (ht : HasTy sig ctx t ty) :
      HasTy sig ctx (.binary .equals s t) .bool
  | implies {s t : Term} (hs : HasTy sig ctx s .bool) (ht : HasTy sig ctx t .bool) :
      HasTy sig ctx (.binary .implies s t) .bool
  | nary {op : NaryOp} {ts : List Term} (ne : ts ≠ []) (h : ∀ t ∈ ts, HasTy sig ctx t .bool) :
      HasTy sig ctx (.nary op ts) .bool
  | arith {op : ArithOp} {s t : Term} (hs : HasTy sig ctx s .int) (ht : HasTy sig ctx t .int) :
      HasTy sig ctx (.arith op s t) .int
  | compare {rel : Comparison} {s t : Term} (hs : HasTy sig ctx s .int)
      (ht : HasTy sig ctx t .int) : HasTy sig ctx (.compare rel s t) .bool
  | ite {c t e : Term} {ty : Ty} (hc : HasTy sig ctx c .bool) (ht : HasTy sig ctx t ty)
      (he : HasTy sig ctx e ty) : HasTy sig ctx (.ite c t e) ty

mutual

/-- The sort that is computed is one by the rules. -/
theorem hasTy_of_sortOf : (t : Term) → (ty : Ty) → t.sortOf sig ctx = .ok ty → HasTy sig ctx t ty
  | .bool b, ty, h => by
    simp only [sortOf, Except.ok.injEq] at h
    exact h ▸ .bool b
  | .int i, ty, h => by
    simp only [sortOf, Except.ok.injEq] at h
    exact h ▸ .int i
  | .id x, ty, h => by
    simp only [sortOf] at h
    split at h
    next ty' hx =>
      obtain rfl := Except.ok.inj h
      exact .id hx
    next => cases h
  | .app f args, ty, h => by
    simp only [sortOf] at h
    split at h
    next => cases h
    next decl hf =>
      split at h
      next arity =>
        obtain ⟨_, hargs, h⟩ := bind_eq_ok_iff.1 h
        obtain rfl := Except.ok.inj h
        exact .app hf arity (hasTy_of_checkArgs args decl.params hargs)
      next => cases h
  | .unary .not t, ty, h => by
    simp only [sortOf, bind_eq_ok_iff, Ty.expect_eq_ok_iff] at h
    obtain ⟨_, ht, _, rfl, h⟩ := h
    obtain rfl := Except.ok.inj h
    exact .not (hasTy_of_sortOf t _ ht)
  | .unary .neg t, ty, h => by
    simp only [sortOf, bind_eq_ok_iff, Ty.expect_eq_ok_iff] at h
    obtain ⟨_, ht, _, rfl, h⟩ := h
    obtain rfl := Except.ok.inj h
    exact .neg (hasTy_of_sortOf t _ ht)
  | .binary .equals s t, ty, h => by
    simp only [sortOf, bind_eq_ok_iff, Ty.expect_eq_ok_iff] at h
    obtain ⟨_, hs, _, ht, _, rfl, h⟩ := h
    obtain rfl := Except.ok.inj h
    exact .equals (hasTy_of_sortOf s _ hs) (hasTy_of_sortOf t _ ht)
  | .binary .implies s t, ty, h => by
    simp only [sortOf, bind_eq_ok_iff, Ty.expect_eq_ok_iff] at h
    obtain ⟨_, hs, _, rfl, _, ht, _, rfl, h⟩ := h
    obtain rfl := Except.ok.inj h
    exact .implies (hasTy_of_sortOf s _ hs) (hasTy_of_sortOf t _ ht)
  | .nary op [], ty, h => by simp [sortOf] at h
  | .nary op (t :: ts), ty, h => by
    simp only [sortOf, bind_eq_ok_iff] at h
    obtain ⟨_, hts, h⟩ := h
    obtain rfl := Except.ok.inj h
    exact .nary (by simp) (hasTy_of_checkFormulas (t :: ts) hts)
  | .arith op s t, ty, h => by
    simp only [sortOf, bind_eq_ok_iff, Ty.expect_eq_ok_iff] at h
    obtain ⟨_, hs, _, rfl, _, ht, _, rfl, h⟩ := h
    obtain rfl := Except.ok.inj h
    exact .arith (hasTy_of_sortOf s _ hs) (hasTy_of_sortOf t _ ht)
  | .compare rel s t, ty, h => by
    simp only [sortOf, bind_eq_ok_iff, Ty.expect_eq_ok_iff] at h
    obtain ⟨_, hs, _, rfl, _, ht, _, rfl, h⟩ := h
    obtain rfl := Except.ok.inj h
    exact .compare (hasTy_of_sortOf s _ hs) (hasTy_of_sortOf t _ ht)
  | .ite c t e, ty, h => by
    simp only [sortOf, bind_eq_ok_iff, Ty.expect_eq_ok_iff] at h
    obtain ⟨_, hc, _, rfl, _, ht, _, he, _, rfl, h⟩ := h
    obtain rfl := Except.ok.inj h
    exact .ite (hasTy_of_sortOf c _ hc) (hasTy_of_sortOf t _ ht) (hasTy_of_sortOf e _ he)

/-- Arguments that pass the check have the sorts of the parameters. -/
theorem hasTy_of_checkArgs : (args : List Term) → (tys : List Ty) → {u : Unit} →
    checkArgs sig ctx tys args = .ok u → ∀ p ∈ tys.zip args, HasTy sig ctx p.2 p.1
  | [], tys, _, _ => by simp
  | t :: ts, [], _, _ => by simp
  | t :: ts, ty :: tys, _, h => by
    simp only [checkArgs, bind_eq_ok_iff, Ty.expect_eq_ok_iff] at h
    obtain ⟨_, ht, _, rfl, h⟩ := h
    exact List.forall_mem_cons.2 ⟨hasTy_of_sortOf t _ ht, hasTy_of_checkArgs ts tys h⟩

/-- Terms that pass the check are formulas. -/
theorem hasTy_of_checkFormulas : (ts : List Term) → {u : Unit} →
    checkFormulas sig ctx ts = .ok u → ∀ t ∈ ts, HasTy sig ctx t .bool
  | [], _, _ => by simp
  | t :: ts, _, h => by
    simp only [checkFormulas, bind_eq_ok_iff, Ty.expect_eq_ok_iff] at h
    obtain ⟨_, ht, _, rfl, h⟩ := h
    exact List.forall_mem_cons.2 ⟨hasTy_of_sortOf t _ ht, hasTy_of_checkFormulas ts h⟩

end

theorem checkArgs_eq_ok (tys : List Ty) (args : List Term)
    (h : ∀ p ∈ tys.zip args, p.2.sortOf sig ctx = .ok p.1) :
    checkArgs sig ctx tys args = .ok () := by
  induction tys generalizing args with
  | nil => simp [checkArgs]
  | cons ty tys ih =>
    cases args with
    | nil => simp [checkArgs]
    | cons t ts =>
      have ht := h (ty, t) (by simp)
      simp only [checkArgs, bind_eq_ok_iff, Ty.expect_eq_ok_iff]
      exact ⟨ty, ht, (), rfl, ih ts fun p hp => h p (by simp [hp])⟩

theorem checkFormulas_eq_ok (ts : List Term) (h : ∀ t ∈ ts, t.sortOf sig ctx = .ok .bool) :
    checkFormulas sig ctx ts = .ok () := by
  induction ts with
  | nil => rfl
  | cons t ts ih =>
    simp only [checkFormulas, bind_eq_ok_iff, Ty.expect_eq_ok_iff]
    exact ⟨.bool, h t (by simp), (), rfl, ih fun s hs => h s (by simp [hs])⟩

/-- A sort by the rules is the one that is computed. -/
theorem HasTy.sortOf_eq {t : Term} {ty : Ty} (h : HasTy sig ctx t ty) :
    t.sortOf sig ctx = .ok ty := by
  induction h with
  | bool | int => rfl
  | id h => simp [sortOf, h]
  | app h arity typed ih =>
    simp only [sortOf, h, arity, if_true, bind_eq_ok_iff]
    exact ⟨(), checkArgs_eq_ok _ _ ih, rfl⟩
  | nary ne h ih =>
    rename_i op ts
    cases ts with
    | nil => exact absurd rfl ne
    | cons t ts =>
      simp only [sortOf, bind_eq_ok_iff]
      exact ⟨(), checkFormulas_eq_ok _ ih, rfl⟩
  | not h ih | neg h ih => simp [sortOf, bind_eq_ok_iff, Ty.expect_eq_ok_iff, ih, pure, Except.pure]
  | equals hs ht ihs iht | implies hs ht ihs iht | arith hs ht ihs iht | compare hs ht ihs iht =>
    simp [sortOf, bind_eq_ok_iff, Ty.expect_eq_ok_iff, ihs, iht, pure, Except.pure]
  | ite hc ht he ihc iht ihe =>
    simp [sortOf, bind_eq_ok_iff, Ty.expect_eq_ok_iff, ihc, iht, ihe, pure, Except.pure]

theorem sortOf_eq_ok_iff {t : Term} {ty : Ty} : t.sortOf sig ctx = .ok ty ↔ HasTy sig ctx t ty :=
  ⟨hasTy_of_sortOf t ty, HasTy.sortOf_eq⟩

theorem checkSort_eq_ok_iff {t : Term} {ty : Ty} {u : Unit} :
    t.checkSort sig ctx ty = .ok u ↔ HasTy sig ctx t ty := by
  simp only [checkSort, bind_eq_ok_iff, Ty.expect_eq_ok_iff, sortOf_eq_ok_iff]
  exact ⟨fun ⟨_, h, e⟩ => e ▸ h, fun h => ⟨ty, h, rfl⟩⟩

/-- A term has one sort. -/
theorem HasTy.unique {t : Term} {ty ty' : Ty} (h : HasTy sig ctx t ty) (h' : HasTy sig ctx t ty') :
    ty = ty' :=
  Except.ok.inj (h.sortOf_eq.symm.trans h'.sortOf_eq)

/-! ## Substitution and calls -/

/-- More functions and variables in scope do not change the sort. -/
theorem HasTy.mono {sig' : Signature} {t : Term} {ty : Ty} (h : HasTy sig ctx t ty)
    (hsig : ∀ f decl, sig.find? f = some decl → sig'.find? f = some decl)
    (hctx : ∀ x ty, ctx x = some ty → ctx' x = some ty) : HasTy sig' ctx' t ty := by
  induction h with
  | bool b => exact .bool b
  | int i => exact .int i
  | id h => exact .id (hctx _ _ h)
  | app h arity _ ih => exact .app (hsig _ _ h) arity ih
  | not _ ih => exact .not ih
  | neg _ ih => exact .neg ih
  | equals _ _ ihs iht => exact .equals ihs iht
  | implies _ _ ihs iht => exact .implies ihs iht
  | nary ne _ ih => exact .nary ne ih
  | arith _ _ ihs iht => exact .arith ihs iht
  | compare _ _ ihs iht => exact .compare ihs iht
  | ite _ _ _ ihc iht ihe => exact .ite ihc iht ihe

/-- Putting terms of the right sorts for the variables keeps the sort. -/
theorem HasTy.subst {σ : Substitution} {t : Term} {ty : Ty} (h : HasTy sig ctx t ty)
    (hσ : ∀ x ty, ctx x = some ty → HasTy sig ctx' ((σ x).getD (.id x)) ty) :
    HasTy sig ctx' (t.subst σ) ty := by
  induction h with
  | bool b => exact .bool b
  | int i => exact .int i
  | id h => exact hσ _ _ h
  | @app f decl args h arity _ ih =>
    rw [Term.subst, substAll_eq_map]
    exact .app h (by simpa using arity) (forall_mem_zip_map ih)
  | not _ ih => exact .not ih
  | neg _ ih => exact .neg ih
  | equals _ _ ihs iht => exact .equals ihs iht
  | implies _ _ ihs iht => exact .implies ihs iht
  | nary ne _ ih =>
    rw [Term.subst, substAll_eq_map]
    refine .nary (by simpa using ne) fun t ht => ?_
    obtain ⟨s, hs, rfl⟩ := List.mem_map.1 ht
    exact ih s hs
  | arith _ _ ihs iht => exact .arith ihs iht
  | compare _ _ ihs iht => exact .compare ihs iht
  | ite _ _ _ ihc iht ihe => exact .ite ihc iht ihe

/-- Replacing calls by terms of the declared sorts keeps the sort. -/
theorem HasTy.mapCalls {sig' : Signature} {call : String → List Term → Term} {t : Term} {ty : Ty}
    (h : HasTy sig ctx t ty)
    (hcall : ∀ f decl args, sig.find? f = some decl → decl.params.length = args.length →
      (∀ p ∈ decl.params.zip args, HasTy sig' ctx p.2 p.1) →
      HasTy sig' ctx (call f args) decl.ret) :
    HasTy sig' ctx (t.mapCalls call) ty := by
  induction h with
  | bool b => exact .bool b
  | int i => exact .int i
  | id h => exact .id h
  | @app f decl args h arity _ ih =>
    rw [Term.mapCalls, mapCallsAll_eq_map]
    exact hcall f decl _ h (by simpa using arity) (forall_mem_zip_map ih)
  | not _ ih => exact .not ih
  | neg _ ih => exact .neg ih
  | equals _ _ ihs iht => exact .equals ihs iht
  | implies _ _ ihs iht => exact .implies ihs iht
  | nary ne _ ih =>
    rw [Term.mapCalls, mapCallsAll_eq_map]
    refine .nary (by simpa using ne) fun t ht => ?_
    obtain ⟨s, hs, rfl⟩ := List.mem_map.1 ht
    exact ih s hs
  | arith _ _ ihs iht => exact .arith ihs iht
  | compare _ _ ihs iht => exact .compare ihs iht
  | ite _ _ _ ihc iht ihe => exact .ite ihc iht ihe

/-- Calls may be replaced in two ways if these agree on arguments of the right sorts. -/
theorem HasTy.mapCalls_congr {sig' : Signature} {call call' : String → List Term → Term} {t : Term}
    {ty : Ty} (h : HasTy sig ctx t ty)
    (hcall : ∀ f decl args, sig.find? f = some decl → decl.params.length = args.length →
      (∀ p ∈ decl.params.zip args, HasTy sig' ctx p.2 p.1) →
      HasTy sig' ctx (call f args) decl.ret)
    (heq : ∀ f decl args, sig.find? f = some decl → decl.params.length = args.length →
      (∀ p ∈ decl.params.zip args, HasTy sig' ctx p.2 p.1) → call f args = call' f args) :
    t.mapCalls call = t.mapCalls call' := by
  induction h with
  | bool | int | id => rfl
  | @app f decl args h arity typed ih =>
    have hargs : args.map (Term.mapCalls call) = args.map (Term.mapCalls call') :=
      List.map_congr_left fun t ht => by
        obtain ⟨p, hp, rfl⟩ := exists_mem_zip arity ht
        exact ih p hp
    rw [Term.mapCalls, Term.mapCalls, mapCallsAll_eq_map, mapCallsAll_eq_map, ← hargs]
    exact heq f decl _ h (by simpa using arity)
      (forall_mem_zip_map fun p hp => (typed p hp).mapCalls hcall)
  | nary _ _ ih =>
    rw [Term.mapCalls, Term.mapCalls, mapCallsAll_eq_map, mapCallsAll_eq_map,
      List.map_congr_left ih]
  | not _ ih | neg _ ih => rw [Term.mapCalls, Term.mapCalls, ih]
  | equals _ _ ihs iht | implies _ _ ihs iht | arith _ _ ihs iht | compare _ _ ihs iht =>
    rw [Term.mapCalls, Term.mapCalls, ihs, iht]
  | ite _ _ _ ihc iht ihe => rw [Term.mapCalls, Term.mapCalls, ihc, iht, ihe]

/-- Where no functions are in scope there are no calls to replace. -/
theorem HasTy.mapCalls_eq {call : String → List Term → Term} {t : Term} {ty : Ty}
    (h : HasTy [] ctx t ty) : t.mapCalls call = t := by
  induction h with
  | bool | int | id => rfl
  | app h => simp [Signature.find?] at h
  | nary _ _ ih =>
    rw [Term.mapCalls, mapCallsAll_eq_map]
    rw [List.map_congr_left ih, List.map_id']
  | not _ ih | neg _ ih => rw [Term.mapCalls, ih]
  | equals _ _ ihs iht | implies _ _ ihs iht | arith _ _ ihs iht | compare _ _ ihs iht =>
    rw [Term.mapCalls, ihs, iht]
  | ite _ _ _ ihc iht ihe => rw [Term.mapCalls, ihc, iht, ihe]

end Term

end InvariantSearch
