import InvariantSearch.Proofs.Derivations
import InvariantSearch.Synthesis.Problem

/-!
# The sorts of candidates

In a sorted grammar (`Grammar.Sorted`) every production has the sort of its nonterminal. So every
term that is derived is well sorted, and has no calls (`Sorted.hasTy`). The standard grammar of a
predicate is sorted (`sorted_standard`), and so is every grammar that is built step by step
(`GrammarBuilder.Checked.sorted_finish`).
-/

namespace InvariantSearch

/-! ## Sorted grammars -/

namespace Grammar

variable {g : Grammar} {ctx : Context} {nt size : Nat} {t : Term}

/-- The sorts of the names in productions. A name is that of a nonterminal, or else of a
variable. -/
def scope (g : Grammar) (ctx : Context) : Context := fun x =>
  match g.index x with
  | some nt => (g.nonterminals[nt]?).map (·.ty)
  | none => ctx x

/-- Every production has the sort of its nonterminal, and the start symbol produces formulas. -/
structure Sorted (g : Grammar) (ctx : Context) : Prop where
  startTy : ∀ n : Nonterminal, g.nonterminals[start]? = some n → n.ty = .bool
  production : ∀ (nt : Nat) (ts : List Term), g.productions[nt]? = some ts →
    ∃ n : Nonterminal, g.nonterminals[nt]? = some n ∧
      ∀ t ∈ ts, Term.HasTy [] (g.scope ctx) t n.ty

theorem exists_production_of_mem {r : Rule} (h : r ∈ g.rulesOf nt) :
    ∃ ts, g.productions[nt]? = some ts ∧ r.template ∈ ts := by
  unfold rulesOf at h
  rw [g.rules_eq, List.getElem?_map] at h
  cases hp : g.productions[nt]? with
  | none => simp [hp] at h
  | some ts =>
    rw [hp] at h
    obtain ⟨t, ht, rfl⟩ := List.mem_map.1 h
    exact ⟨ts, rfl, ht⟩

/-- A term that is derived has the sort of the nonterminal. -/
theorem Sorted.hasTy (h : g.Sorted ctx) (hd : g.Derives nt size t) :
    ∃ n, g.nonterminals[nt]? = some n ∧ Term.HasTy [] ctx t n.ty := by
  refine Derives.keeps (P := fun nt t => ∃ n, g.nonterminals[nt]? = some n ∧
    Term.HasTy [] ctx t n.ty) (fun nt r hr parts t hm hparts => ?_) hd
  obtain ⟨ts, hts, htemplate⟩ := exists_production_of_mem hr
  obtain ⟨n, hn, hsorted⟩ := h.production nt ts hts
  refine ⟨n, hn, ?_⟩
  have hscope : ∀ x, g.scope ctx x =
      match g.index x with
      | some c => (fun c => (g.nonterminals[c]?).map Nonterminal.ty) c
      | none => ctx x := fun _ => rfl
  refine hm.hasTy hscope (hsorted _ htemplate) fun part hpart ty hty => ?_
  obtain ⟨n', hn', ht⟩ := hparts part hpart
  rw [hn'] at hty
  obtain rfl := Option.some.inj hty
  exact ht

/-- Candidates are formulas. -/
theorem Sorted.hasTy_start (h : g.Sorted ctx) (hd : g.Derives start size t) :
    Term.HasTy [] ctx t .bool := by
  obtain ⟨n, hn, ht⟩ := h.hasTy hd
  rwa [h.startTy n hn] at ht

/-- A grammar is sorted if each list of productions has the sort of its nonterminal. -/
theorem sorted_ofProductions {nts : List Nonterminal} {productions : List (List Term)}
    (hstart : ∀ n : Nonterminal, nts[0]? = some n → n.ty = .bool)
    (h : List.Forall₂ (fun n ts => ∀ t ∈ ts,
      Term.HasTy [] ((ofProductions nts productions).scope ctx) t n.ty) nts productions) :
    (ofProductions nts productions).Sorted ctx := by
  refine ⟨hstart, fun nt ts hts => ?_⟩
  obtain ⟨hlt, rfl⟩ := List.getElem?_eq_some_iff.1 hts
  have hlt' : nt < nts.length := h.length_eq ▸ hlt
  exact ⟨nts[nt], List.getElem?_eq_getElem hlt', h.get hlt' hlt⟩

/-! ## Names in scope -/

theorem scope_of_mem (nodup : (g.nonterminals.map (·.name)).Nodup) {n : Nonterminal}
    (hn : n ∈ g.nonterminals) : g.scope ctx n.name = some n.ty := by
  unfold scope
  rw [g.index_eq, Nonterminal.index]
  cases hindex : g.nonterminals.findIdx? (·.name = n.name) with
  | none =>
    have hne := List.findIdx?_eq_none_iff.1 hindex n hn
    simp at hne
  | some nt =>
    obtain ⟨hlt, hname, -⟩ := List.findIdx?_eq_some_iff_getElem.1 hindex
    have hmem : g.nonterminals[nt] ∈ g.nonterminals := List.getElem_mem hlt
    have heq : g.nonterminals[nt] = n :=
      List.inj_on_of_nodup_map nodup hmem hn (by simpa using hname)
    simp [List.getElem?_eq_getElem hlt, heq]

theorem scope_of_not_mem {x : String} (h : ∀ n ∈ g.nonterminals, n.name ≠ x) :
    g.scope ctx x = ctx x := by
  unfold scope
  rw [g.index_eq, Nonterminal.index, List.findIdx?_eq_none_iff.2 (by simpa using h)]

/-- Parameters are in scope if no nonterminal has the name of one. -/
theorem scope_of_mem_params {params : List Binder} (nodup : (params.map (·.name)).Nodup)
    (apart : ∀ n ∈ g.nonterminals, ∀ p ∈ params, n.name ≠ p.name) :
    ∀ p ∈ params, g.scope (.ofBinders params) p.name = some p.ty := by
  intro p hp
  rw [scope_of_not_mem fun n hn => apart n hn p hp]
  exact Context.ofBinders_of_mem nodup hp

/-! ## The standard grammar -/

/-- A name that is still taken has been made longer as often as there are names as long. -/
theorem lt_length_filter_of_mem {taken : List String} {n : Nat} {name : String}
    (h : freshName taken n name ∈ taken) :
    n < (taken.filter fun x => name.length ≤ x.length).length := by
  induction n generalizing name with
  | zero => exact List.length_pos_of_mem (List.mem_filter.2 ⟨h, by simp [freshName]⟩)
  | succ n ih =>
    rw [freshName] at h
    split at h
    next hname =>
      have hrest := ih h
      have hfilter : (taken.filter fun x => (name ++ "!").length ≤ x.length) =
          (taken.filter fun x => name.length ≤ x.length).filter
            fun x => (name ++ "!").length ≤ x.length := by
        rw [List.filter_filter]
        refine List.filter_congr fun x _ => ?_
        rw [← Bool.decide_and, decide_eq_decide, String.length_append]
        omega
      have hlt : (taken.filter fun x => (name ++ "!").length ≤ x.length).length <
          (taken.filter fun x => name.length ≤ x.length).length := by
        rw [hfilter]
        refine List.length_filter_lt_length_iff_exists.2
          ⟨name, List.mem_filter.2 ⟨hname, by simp⟩, ?_⟩
        simp
      omega
    next hname => exact absurd h hname

theorem freshName_not_mem (taken : List String) (name : String) :
    freshName taken taken.length name ∉ taken := by
  intro h
  have hlt := lt_length_filter_of_mem h
  have hle := List.length_filter_le (fun x => decide (name.length ≤ x.length)) taken
  omega

theorem exists_freshName_eq (taken : List String) (n : Nat) (name : String) :
    ∃ k, (freshName taken n name).toList = name.toList ++ List.replicate k '!' := by
  induction n generalizing name with
  | zero => exact ⟨0, by simp [freshName]⟩
  | succ n ih =>
    rw [freshName]
    split
    next =>
      obtain ⟨k, hk⟩ := ih (name ++ "!")
      exact ⟨k + 1, by rw [hk]; simp [List.replicate_succ]⟩
    next => exact ⟨0, by simp⟩

theorem freshName_ne (taken taken' : List String) (m n : Nat) :
    freshName taken m "Start" ≠ freshName taken' n "StartInt" := by
  intro h
  obtain ⟨j, hj⟩ := exists_freshName_eq taken m "Start"
  obtain ⟨k, hk⟩ := exists_freshName_eq taken' n "StartInt"
  rw [h, hk] at hj
  cases j <;> simp [List.replicate_succ] at hj

/-- Parameters of a sort have that sort where their names are in scope. -/
theorem hasTy_of_mem_parameters {params : List Binder} {scope : Context}
    (hscope : ∀ p ∈ params, scope p.name = some p.ty) {ty : Ty} {t : Term}
    (h : t ∈ (params.filter (·.ty = ty)).map fun p => Term.id p.name) :
    Term.HasTy [] scope t ty := by
  obtain ⟨p, hp, rfl⟩ := List.mem_map.1 h
  obtain ⟨hp, hty⟩ := List.mem_filter.1 hp
  rw [← of_decide_eq_true hty]
  exact .id (hscope p hp)

/-- The productions for formulas in every logic are formulas. -/
theorem hasTy_of_mem_formulas {params : List Binder} {scope : Context}
    (hscope : ∀ p ∈ params, scope p.name = some p.ty) {b : String} (hb : scope b = some .bool)
    {t : Term} (h : t ∈ [.bool true, .bool false] ++
      ((params.filter (·.ty = .bool)).map fun p => Term.id p.name) ++
      [(Term.id b).not, .nary .and [.id b, .id b], .nary .or [.id b, .id b]]) :
    Term.HasTy [] scope t .bool := by
  have hid : Term.HasTy [] scope (.id b) .bool := .id hb
  have hpair : ∀ t ∈ [Term.id b, .id b], Term.HasTy [] scope t .bool := by simpa using hid
  rcases List.mem_append.1 h with h | h
  · rcases List.mem_append.1 h with h | h
    · rcases List.mem_pair.1 h with rfl | rfl
      · exact .bool true
      · exact .bool false
    · exact hasTy_of_mem_parameters hscope h
  · simp only [List.mem_cons, List.not_mem_nil, or_false] at h
    rcases h with rfl | rfl | rfl
    · exact .not hid
    · exact .nary (by simp) hpair
    · exact .nary (by simp) hpair

theorem hasTy_of_mem_comparisons {scope : Context} {i : String} (hi : scope i = some .int)
    {t : Term} (h : t ∈ [(Term.id i).equals (.id i), .compare .le (.id i) (.id i),
      .compare .lt (.id i) (.id i), .compare .ge (.id i) (.id i)]) :
    Term.HasTy [] scope t .bool := by
  have hid : Term.HasTy [] scope (.id i) .int := .id hi
  simp only [List.mem_cons, List.not_mem_nil, or_false] at h
  rcases h with rfl | rfl | rfl | rfl
  · exact .equals hid hid
  · exact .compare hid hid
  · exact .compare hid hid
  · exact .compare hid hid

/-- The productions for integers are integers, with products or without. -/
theorem hasTy_of_mem_numbers {params : List Binder} {scope : Context}
    (hscope : ∀ p ∈ params, scope p.name = some p.ty) {i : String} (hi : scope i = some .int)
    {literals : List Int64} {nonlinear : Bool} {t : Term}
    (h : t ∈ ((params.filter (·.ty = .int)).map fun p => Term.id p.name) ++
      literals.map Term.int ++ [.arith .add (.id i) (.id i), .arith .sub (.id i) (.id i)] ++
      if nonlinear = true then [.arith .mul (.id i) (.id i)] else []) :
    Term.HasTy [] scope t .int := by
  have hid : Term.HasTy [] scope (.id i) .int := .id hi
  simp only [List.mem_append] at h
  rcases h with ((h | h) | h) | h
  · exact hasTy_of_mem_parameters hscope h
  · obtain ⟨c, -, rfl⟩ := List.mem_map.1 h
    exact .int c
  · rcases List.mem_pair.1 h with rfl | rfl
    · exact .arith hid hid
    · exact .arith hid hid
  · split at h
    next =>
      obtain rfl := List.mem_singleton.1 h
      exact .arith hid hid
    next => simp at h

/-- The standard grammar of a predicate with distinct parameters is sorted. -/
theorem sorted_standard {params : List Binder} (nodup : (params.map (·.name)).Nodup) (logic : Logic)
    (constants : List Int64) : (standard params logic constants).Sorted (.ofBinders params) := by
  have hfresh (name : String) : ∀ p ∈ params,
      freshName (params.map (·.name)) (params.map (·.name)).length name ≠ p.name := by
    intro p hp heq
    exact freshName_not_mem (params.map (·.name)) name (heq ▸ List.mem_map_of_mem hp)
  have hstart := hfresh "Start"
  have hnumber := hfresh "StartInt"
  have hne := freshName_ne (params.map (·.name)) (params.map (·.name)) (params.map (·.name)).length
    (params.map (·.name)).length
  unfold standard
  dsimp only
  generalize freshName (params.map (·.name)) (params.map (·.name)).length "Start" = b at *
  generalize freshName (params.map (·.name)) (params.map (·.name)).length "StartInt" = i at *
  cases logic.hasInts with
  | true =>
    rw [if_pos rfl]
    refine sorted_ofProductions (fun n hn => Option.some.inj hn ▸ rfl) ?_
    generalize hg : ofProductions [⟨b, .bool⟩, ⟨i, .int⟩] _ = g
    have hnts : g.nonterminals = [⟨b, .bool⟩, ⟨i, .int⟩] := hg ▸ rfl
    have hnames : (g.nonterminals.map (·.name)).Nodup := by simpa [hnts] using hne
    have hb : g.scope (.ofBinders params) b = some .bool :=
      scope_of_mem (n := ⟨b, .bool⟩) hnames (by simp [hnts])
    have hi : g.scope (.ofBinders params) i = some .int :=
      scope_of_mem (n := ⟨i, .int⟩) hnames (by simp [hnts])
    have hscope := scope_of_mem_params (g := g) nodup (by simpa [hnts] using ⟨hstart, hnumber⟩)
    refine .cons (fun t ht => ?_) (.cons (fun t ht => hasTy_of_mem_numbers hscope hi ht) .nil)
    rcases List.mem_append.1 ht with ht | ht
    · exact hasTy_of_mem_formulas hscope hb ht
    · exact hasTy_of_mem_comparisons hi ht
  | false =>
    rw [if_neg Bool.false_ne_true]
    refine sorted_ofProductions (fun n hn => Option.some.inj hn ▸ rfl) ?_
    generalize hg : ofProductions [⟨b, .bool⟩] _ = g
    have hnts : g.nonterminals = [⟨b, .bool⟩] := hg ▸ rfl
    have hb : g.scope (.ofBinders params) b = some .bool :=
      scope_of_mem (n := ⟨b, .bool⟩) (by simp [hnts]) (by simp [hnts])
    have hscope := scope_of_mem_params (g := g) nodup (by simpa [hnts] using hstart)
    exact .cons (fun t ht => hasTy_of_mem_formulas hscope hb ht) .nil

end Grammar

/-! ## Grammars that are built -/

/-- What every step of a computation keeps, the whole keeps. -/
theorem foldlM_keeps {ε α β : Type} {P : α → Prop} {f : α → β → Except ε α} {bs : List β} {a a' : α}
    (step : ∀ a b a', P a → f a b = .ok a' → P a') (ha : P a) (h : bs.foldlM f a = .ok a') :
    P a' := by
  induction bs generalizing a with
  | nil => exact Except.ok.inj h ▸ ha
  | cons b bs ih =>
    obtain ⟨a₁, hstep, h⟩ := bind_eq_ok_iff.1 h
    exact ih (step a b a₁ ha hstep) h

namespace GrammarBuilder

/-- What the steps of building a grammar keep: names are distinct, the start symbol produces
formulas, and each rule has the sort of its nonterminal. -/
structure Checked (params : List Binder) (b : GrammarBuilder) : Prop where
  params_eq : b.params = params
  nodup : (b.nonterminals.map (·.name)).Nodup
  apart : ∀ n ∈ b.nonterminals, ∀ p ∈ b.params, n.name ≠ p.name
  startTy : ∀ n : Nonterminal, b.nonterminals[0]? = some n → n.ty = .bool
  sorted : ∀ e ∈ b.entries, ∀ t, .term t ∈ e.2 → Term.HasTy [] b.context t e.1.ty

variable {params : List Binder} {b b' : GrammarBuilder} {nt : String}

theorem checked_new (params : List Binder) (logic : Logic) : (new params logic).Checked params where
  params_eq := rfl
  nodup := List.nodup_nil
  apart := by simp [new, nonterminals]
  startTy := by simp [new, nonterminals]
  sorted := by simp [new]

theorem nonterminals_push (b : GrammarBuilder) (i : Nat) (spec : RuleSpec) :
    (b.push i spec).nonterminals = b.nonterminals := by
  refine List.ext_getElem? fun j => ?_
  simp only [nonterminals, push, List.getElem?_map, List.getElem?_modify]
  cases b.entries[j]? with
  | none => simp
  | some e => by_cases h : i = j <;> simp [h]

theorem getElem?_of_entry {i : Nat} {e : Nonterminal × List RuleSpec}
    (h : b.entry nt = .ok (i, e)) : b.entries[i]? = some e := by
  unfold entry at h
  split at h
  next => cases h
  next j hj =>
    split at h
    next => cases h
    next e' he =>
      obtain ⟨rfl, rfl⟩ := Prod.mk.inj (Except.ok.inj h)
      exact he

theorem mem_entries_push {i : Nat} {e e' : Nonterminal × List RuleSpec}
    (he : b.entries[i]? = some e) {spec : RuleSpec} (he' : e' ∈ (b.push i spec).entries) :
    e' ∈ b.entries ∨ e' = (e.1, e.2 ++ [spec]) := by
  obtain ⟨j, hj⟩ := List.mem_iff_getElem?.1 he'
  simp only [GrammarBuilder.push, List.getElem?_modify] at hj
  by_cases hij : i = j
  · subst hij
    rw [he] at hj
    simp only [if_true, Option.map_eq_map, Option.map_some, Option.some.injEq] at hj
    exact .inr hj.symm
  · have hsame : b.entries[j]? = some e' := by simpa [hij] using hj
    exact .inl (List.mem_of_getElem? hsame)

/-- One more thing to produce has to have the sort of the nonterminal. -/
theorem Checked.push (h : b.Checked params) {i : Nat} {e : Nonterminal × List RuleSpec}
    (he : b.entries[i]? = some e) {spec : RuleSpec}
    (hspec : ∀ t, spec = .term t → Term.HasTy [] b.context t e.1.ty) :
    (b.push i spec).Checked params := by
  have hnts := nonterminals_push b i spec
  have hcontext : (b.push i spec).context = b.context := by
    unfold context
    rw [hnts]
    rfl
  refine ⟨h.params_eq, hnts ▸ h.nodup, hnts ▸ h.apart, hnts ▸ h.startTy, fun e' he' t ht => ?_⟩
  rw [hcontext]
  rcases mem_entries_push he he' with he' | rfl
  · exact h.sorted e' he' t ht
  · rcases List.mem_append.1 ht with ht | ht
    · exact h.sorted e (List.mem_of_getElem? he) t ht
    · exact hspec t (List.mem_singleton.1 ht).symm

/-- A nonterminal that is accepted has a new name, and is for formulas if it is the first. -/
theorem declare_eq_ok {name : String} {ty : Ty} (hb : b.declare name ty = .ok b') :
    (b.entries = [] → ty = .bool) ∧ (∀ n ∈ b.nonterminals, n.name ≠ name) ∧
      (∀ p ∈ b.params, p.name ≠ name) ∧
      b' = { b with entries := b.entries ++ [(⟨name, ty⟩, [])] } := by
  unfold GrammarBuilder.declare at hb
  split at hb
  next => cases hb
  next hstart =>
    split at hb
    next => cases hb
    next hfresh =>
      simp only [Bool.or_eq_true, List.any_eq_true, decide_eq_true_eq, not_or, not_exists,
        not_and] at hfresh
      exact ⟨fun hnil => by simpa [hnil] using hstart, hfresh.1, hfresh.2, (Except.ok.inj hb).symm⟩

theorem nonterminals_concat (b : GrammarBuilder) (n : Nonterminal) :
    ({ b with entries := b.entries ++ [(n, [])] } : GrammarBuilder).nonterminals =
      b.nonterminals ++ [n] := by
  simp [nonterminals]

/-- One more nonterminal with a new name changes the sort of no name in scope. -/
theorem context_concat {n : Nonterminal} (hnts : ∀ m ∈ b.nonterminals, m.name ≠ n.name)
    (hparams : ∀ p ∈ b.params, p.name ≠ n.name) {x : String} {ty : Ty}
    (hx : b.context x = some ty) :
    ({ b with entries := b.entries ++ [(n, [])] } : GrammarBuilder).context x = some ty := by
  obtain ⟨p, hp, hname, -⟩ := Context.exists_of_ofBinders hx
  rw [context, nonterminals_concat, List.map_append, ← List.append_assoc, Context.ofBinders_append,
    Context.ofBinders_eq_none fun q hq => ?_]
  · exact hx
  · obtain rfl := List.mem_singleton.1 hq
    rintro rfl
    rcases List.mem_append.1 hp with hp | hp
    · exact hparams p hp hname
    · obtain ⟨m, hm, rfl⟩ := List.mem_map.1 hp
      exact hnts m hm hname

theorem Checked.declare (h : b.Checked params) {name : String} {ty : Ty}
    (hb : b.declare name ty = .ok b') : b'.Checked params := by
  obtain ⟨hstart, hnts, hparams, rfl⟩ := declare_eq_ok hb
  have hconcat := nonterminals_concat b ⟨name, ty⟩
  refine ⟨h.params_eq, hconcat ▸ nodup_map_concat h.nodup hnts, fun n hn p hp => ?_,
    fun n hn => ?_, fun e he t ht => ?_⟩
  · rw [hconcat] at hn
    rcases List.mem_append.1 hn with hn | hn
    · exact h.apart n hn p hp
    · obtain rfl := List.mem_singleton.1 hn
      exact fun heq => hparams p hp heq.symm
  · rw [hconcat] at hn
    cases hentries : b.nonterminals with
    | nil =>
      rw [hentries] at hn
      obtain rfl := Option.some.inj hn
      exact hstart (List.map_eq_nil_iff.1 hentries)
    | cons n' nts =>
      rw [hentries] at hn
      exact h.startTy n (by rw [hentries]; exact hn)
  · rcases List.mem_append.1 he with he | he
    · exact (h.sorted e he t ht).mono (fun _ _ hf => hf) fun x ty => context_concat hnts hparams
    · obtain rfl := List.mem_singleton.1 he
      simp at ht

/-! ### Steps of building -/

/-- The builder accepts this for a nonterminal of the sort to produce. -/
def Accepts (b : GrammarBuilder) (ty : Ty) : RuleSpec → Prop
  | .term t => Term.HasTy [] b.context t ty ∧ b.logic.admits t = .ok ()
  | .anyConstant => ty = .int → b.logic.hasInts = true
  | .anyVariable => True

/-- The step gives a nonterminal one more thing to produce, which is accepted, or it changes
nothing. -/
def Extends (b b' : GrammarBuilder) : Prop :=
  b' = b ∨ ∃ i e spec, b.entries[i]? = some e ∧ b.Accepts e.1.ty spec ∧ b' = b.push i spec

theorem extends_of_addRule {rule : Term} (hb : b.addRule nt rule = .ok b') : b.Extends b' := by
  obtain ⟨⟨i, n, specs⟩, hentry, hb⟩ := bind_eq_ok_iff.1 hb
  obtain ⟨_, hsort, hb⟩ := bind_eq_ok_iff.1 hb
  obtain ⟨_, hadmits, hb⟩ := bind_eq_ok_iff.1 hb
  have hty := Term.checkSort_eq_ok_iff.1 (mapError_eq_ok_iff.1 hsort)
  split at hb
  next => cases hb
  next =>
    obtain rfl := Except.ok.inj hb
    have haccepts : b.Accepts n.ty (.term rule) := ⟨hty, mapError_eq_ok_iff.1 hadmits⟩
    exact .inr ⟨i, _, _, getElem?_of_entry hentry, haccepts, rfl⟩

theorem extends_of_addAnyConstant (hb : b.addAnyConstant nt = .ok b') : b.Extends b' := by
  obtain ⟨⟨i, n, specs⟩, hentry, hb⟩ := bind_eq_ok_iff.1 hb
  dsimp only at hb
  split at hb
  next => cases hb
  next hints =>
    obtain rfl := Except.ok.inj hb
    split
    next => exact .inl rfl
    next =>
      refine .inr ⟨i, _, .anyConstant, getElem?_of_entry hentry, fun (hty : n.ty = .int) => ?_, rfl⟩
      simpa [hty] using hints

theorem extends_of_addAnyVariable (hb : b.addAnyVariable nt = .ok b') : b.Extends b' := by
  obtain ⟨⟨i, n, specs⟩, hentry, hb⟩ := bind_eq_ok_iff.1 hb
  obtain rfl := Except.ok.inj hb
  split
  next => exact .inl rfl
  next => exact .inr ⟨i, _, .anyVariable, getElem?_of_entry hentry, trivial, rfl⟩

theorem extends_of_addSyntax {rule : RuleSyntax} (hb : b.addSyntax nt rule = .ok b') :
    b.Extends b' := by
  cases rule with
  | term t => exact extends_of_addRule hb
  | anyConstant ty =>
    obtain ⟨_, -, hb⟩ := bind_eq_ok_iff.1 hb
    exact extends_of_addAnyConstant hb
  | anyVariable ty =>
    obtain ⟨_, -, hb⟩ := bind_eq_ok_iff.1 hb
    exact extends_of_addAnyVariable hb

/-- What the steps of building a grammar keep holds of a grammar that is taken over as it is
written. -/
theorem ofSyntax_keeps {P : GrammarBuilder → Prop} {logic : Logic} {g : GrammarSyntax}
    (new : P (new params logic))
    (declare : ∀ b name ty b', P b → b.declare name ty = .ok b' → P b')
    (push : ∀ b i e spec, P b → b.entries[i]? = some e → b.Accepts e.1.ty spec → P (b.push i spec))
    (hb : ofSyntax params logic g = .ok b) : P b := by
  obtain ⟨b₁, hdeclare, hrules⟩ := bind_eq_ok_iff.1 hb
  have hextends {b b' : GrammarBuilder} (h : P b) (hstep : b.Extends b') : P b' := by
    obtain rfl | ⟨i, e, spec, he, hspec, rfl⟩ := hstep
    · exact h
    · exact push b i e spec h he hspec
  have h₁ : P b₁ := foldlM_keeps (fun _ _ _ h hstep => declare _ _ _ _ h hstep) new hdeclare
  refine foldlM_keeps (fun _ _ _ h hstep => ?_) h₁ hrules
  exact foldlM_keeps (fun _ _ _ h hstep => hextends h (extends_of_addSyntax hstep)) h hstep

/-- A grammar that is taken over as it is written passes all checks. -/
theorem checked_ofSyntax {logic : Logic} {g : GrammarSyntax}
    (hb : ofSyntax params logic g = .ok b) : b.Checked params := by
  refine ofSyntax_keeps (checked_new params logic) (fun _ _ _ _ h hstep => h.declare hstep) ?_ hb
  intro b i e spec h he hspec
  refine h.push he fun t ht => ?_
  subst ht
  exact hspec.1

/-- The names in the productions of the finished grammar have the sorts that rules were checked
with. -/
theorem Checked.scope_finish (h : b.Checked params) (constants : List Int64) :
    (b.finish constants).scope (.ofBinders params) = b.context := by
  funext x
  rw [context, h.params_eq, Context.ofBinders_append]
  by_cases hx : ∃ n ∈ b.nonterminals, n.name = x
  · obtain ⟨n, hn, rfl⟩ := hx
    have hbinders : Context.ofBinders (b.nonterminals.map fun n => ⟨n.name, n.ty⟩) n.name =
        some n.ty :=
      Context.ofBinders_of_mem (b := ⟨n.name, n.ty⟩) (by rw [List.map_map]; exact h.nodup)
        (List.mem_map_of_mem hn)
    rw [hbinders, Option.some_or]
    exact Grammar.scope_of_mem (g := b.finish constants) h.nodup hn
  · have hne : ∀ n ∈ b.nonterminals, n.name ≠ x := fun n hn hname => hx ⟨n, hn, hname⟩
    have hbinders : Context.ofBinders (b.nonterminals.map fun n => ⟨n.name, n.ty⟩) x = none := by
      refine Context.ofBinders_eq_none fun p hp => ?_
      obtain ⟨n, hn, rfl⟩ := List.mem_map.1 hp
      exact hne n hn
    rw [hbinders, Option.none_or]
    exact Grammar.scope_of_not_mem (g := b.finish constants) hne

/-- The finished grammar is sorted if the parameters are distinct. -/
theorem Checked.sorted_finish (h : b.Checked params) (nodup : (params.map (·.name)).Nodup)
    (constants : List Int64) : (b.finish constants).Sorted (.ofBinders params) := by
  have hstart : ∀ n : Nonterminal, b.nonterminals[0]? = some n → n.ty = .bool := h.startTy
  refine Grammar.sorted_ofProductions hstart ?_
  refine List.forall₂_map_left_iff.2 (List.forall₂_map_right_iff.2 (List.forall₂_same.2 ?_))
  rintro ⟨n, specs⟩ he t ht
  obtain ⟨spec, hspec, ht⟩ := List.mem_flatMap.1 (List.mem_eraseDups.1 ht)
  cases spec with
  | term u =>
    obtain rfl := List.mem_singleton.1 ht
    show Term.HasTy [] ((b.finish constants).scope (.ofBinders params)) t n.ty
    rw [h.scope_finish constants]
    exact h.sorted _ he t hspec
  | anyConstant =>
    cases hty : n.ty with
    | bool =>
      simp only [expand, hty] at ht
      rcases List.mem_pair.1 ht with rfl | rfl
      · exact .bool true
      · exact .bool false
    | int =>
      simp only [expand, hty] at ht
      obtain ⟨c, -, rfl⟩ := List.mem_map.1 ht
      exact .int c
  | anyVariable =>
    rw [expand, h.params_eq] at ht
    exact Grammar.hasTy_of_mem_parameters
      (Grammar.scope_of_mem_params nodup (h.params_eq ▸ h.apart)) ht

end GrammarBuilder

end InvariantSearch
