import InvariantSearch.Enumeration.Derivation
import InvariantSearch.Proofs.Templates
import Mathlib.Algebra.Order.BigOperators.Group.List
import Mathlib.Algebra.Order.Group.Nat
import Mathlib.Data.List.Forall2

/-!
# Derivations of terms

A derivation is valid (`Deriv.Valid`) if each of its nodes has a rule of its nonterminal, children
for the holes of the rule, and the right size. `Grammar.Derives` says that a term has a derivation
of a nonterminal of some size. A derivation begins with a rule whose template matches the term, and
goes on with derivations of what matching finds in the holes (`Grammar.derives_iff`).
-/

namespace InvariantSearch

/-! ## Related lists -/

section Related

variable {α β : Type} {R S : α → β → Prop} {as : List α} {bs : List β}

/-- What relates two lists is weakened for their elements alone. -/
theorem forall₂_of_mem (h : ∀ a ∈ as, ∀ b ∈ bs, R a b → S a b) (hR : List.Forall₂ R as bs) :
    List.Forall₂ S as bs := by
  induction hR with
  | nil => exact .nil
  | cons hab _ ih =>
    exact .cons (h _ List.mem_cons_self _ List.mem_cons_self hab) (ih fun a ha b hb =>
      h a (List.mem_cons_of_mem _ ha) b (List.mem_cons_of_mem _ hb))

theorem exists_mem_of_forall₂ (h : List.Forall₂ R as bs) {a : α} (ha : a ∈ as) :
    ∃ b ∈ bs, R a b := by
  induction h with
  | nil => simp at ha
  | cons hab _ ih =>
    rcases List.mem_cons.1 ha with rfl | ha
    · exact ⟨_, List.mem_cons_self, hab⟩
    · obtain ⟨b, hb, h⟩ := ih ha
      exact ⟨b, List.mem_cons_of_mem _ hb, h⟩

theorem forall₂_trans {γ : Type} {S : β → γ → Prop} {T : α → γ → Prop} {cs : List γ}
    (h : ∀ {a b c}, R a b → S b c → T a c) (hR : List.Forall₂ R as bs)
    (hS : List.Forall₂ S bs cs) : List.Forall₂ T as cs := by
  induction hR generalizing cs with
  | nil =>
    cases hS
    exact .nil
  | cons hab _ ih =>
    cases hS with
    | cons hbc hS => exact .cons (h hab hbc) (ih hS)

theorem exists_forall₂ (h : ∀ a ∈ as, ∃ b, R a b) : ∃ bs, List.Forall₂ R as bs := by
  induction as with
  | nil => exact ⟨[], .nil⟩
  | cons a as ih =>
    obtain ⟨b, hb⟩ := h a List.mem_cons_self
    obtain ⟨bs, hbs⟩ := ih fun a ha => h a (List.mem_cons_of_mem _ ha)
    exact ⟨b :: bs, .cons hb hbs⟩

theorem mapM_eq_some_iff {f : α → Option β} :
    as.mapM f = some bs ↔ List.Forall₂ (fun a b => f a = some b) as bs := by
  induction as generalizing bs with
  | nil => simp [eq_comm]
  | cons a as ih =>
    rw [List.mapM_cons, List.forall₂_cons_left_iff]
    constructor
    · intro h
      obtain ⟨b, hb, h⟩ := Option.bind_eq_some_iff.1 h
      obtain ⟨bs, hbs, h⟩ := Option.bind_eq_some_iff.1 h
      exact ⟨b, bs, hb, ih.1 hbs, (Option.some.inj h).symm⟩
    · rintro ⟨b, bs, hb, hbs, rfl⟩
      rw [hb, ih.2 hbs]
      rfl

end Related

/-! ## Rules -/

namespace Grammar

variable {g : Grammar} {nt : Nat} {r : Rule}

/-- A rule is the rule of its template. -/
theorem eq_ofTemplate_of_mem (h : r ∈ g.rulesOf nt) : r = .ofTemplate g.index r.template := by
  unfold rulesOf at h
  rw [g.rules_eq, List.getElem?_map] at h
  cases hp : g.productions[nt]? with
  | none => simp [hp] at h
  | some ts =>
    rw [hp] at h
    obtain ⟨t, -, rfl⟩ := List.mem_map.1 h
    rfl

theorem lt_length_of_mem (h : r ∈ g.rulesOf nt) : nt < g.rules.length := by
  unfold rulesOf at h
  by_contra hlt
  rw [List.getElem?_eq_none (Nat.le_of_not_lt hlt)] at h
  simp at h

theorem exists_rules_of_mem (h : r ∈ g.rulesOf nt) : ∃ rules ∈ g.rules, r ∈ rules := by
  unfold rulesOf at h
  cases hrules : g.rules[nt]? with
  | none => simp [hrules] at h
  | some rules =>
    rw [hrules] at h
    exact ⟨rules, List.mem_of_getElem? hrules, h⟩

theorem children_eq_of_mem (h : r ∈ g.rulesOf nt) : r.children = r.template.holes g.index := by
  rw [eq_ofTemplate_of_mem h]
  rfl

/-- The weight is that of the nodes that are not holes, but at least one. -/
theorem weight_eq_of_mem (h : r ∈ g.rulesOf nt) :
    r.weight = max 1 (r.template.size - r.children.length) := by
  rw [eq_ofTemplate_of_mem h]
  rfl

theorem weight_pos_of_mem (h : r ∈ g.rulesOf nt) : 1 ≤ r.weight := by
  rw [weight_eq_of_mem h]
  exact Nat.le_max_left _ _

/-- Matching the template of a rule finds its children. -/
theorem map_fst_of_matches (h : r ∈ g.rulesOf nt) {t : Term} {parts : List (Nat × Term)}
    (hm : Term.Matches g.index r.template t parts) : parts.map Prod.fst = r.children := by
  rw [children_eq_of_mem h, hm.holes_eq]

/-- Instantiating a rule by what matching finds gives the term back. -/
theorem instantiate_of_matches {t : Term} {parts : List (Nat × Term)}
    (hm : Term.Matches g.index r.template t parts) :
    g.instantiate r (parts.map Prod.snd) = t := by
  have hfill := hm.fill_eq []
  rw [List.append_nil] at hfill
  rw [instantiate, hfill]

/-- Matching finds what a rule is instantiated by. -/
theorem matches_instantiate (h : r ∈ g.rulesOf nt) {ts : List Term}
    (length : ts.length = r.children.length) :
    Term.Matches g.index r.template (g.instantiate r ts) (r.children.zip ts) := by
  rw [children_eq_of_mem h] at length ⊢
  exact Term.match?_eq_some_iff.1 (Term.match?_fill length)

end Grammar

/-! ## Valid derivations -/

namespace Deriv

variable {g : Grammar}

/-- Every node of the derivation has a rule of its nonterminal, children for the holes of the rule,
and as its size the weight of the rule and the sizes of the children. -/
inductive Valid (g : Grammar) : Deriv → Prop
  | node {nt rule size : Nat} {children : List Deriv} {r : Rule}
      (hrule : (g.rulesOf nt)[rule]? = some r) (hkids : children.map Deriv.nt = r.children)
      (hsize : size = r.weight + (children.map Deriv.size).sum)
      (hvalid : ∀ c ∈ children, Valid g c) : Valid g (.node nt rule size children)

@[simp] theorem terms_eq_map (ds : List Deriv) : terms g ds = ds.map (term g) := by
  induction ds with
  | nil => rfl
  | cons d ds ih => rw [terms, ih, List.map_cons]

theorem term_node {nt rule size : Nat} {children : List Deriv} {r : Rule}
    (hrule : (g.rulesOf nt)[rule]? = some r) :
    term g (.node nt rule size children) = g.instantiate r (children.map (term g)) := by
  rw [term, hrule, terms_eq_map]

theorem Valid.size_pos {d : Deriv} (h : d.Valid g) : 1 ≤ d.size := by
  obtain ⟨hrule, -, rfl, -⟩ := h
  have := Grammar.weight_pos_of_mem (List.mem_of_getElem? hrule)
  show 1 ≤ _ + _
  omega

/-- A child is smaller than the derivation. -/
theorem Valid.size_lt {nt rule size : Nat} {children : List Deriv}
    (h : Valid g (.node nt rule size children)) {c : Deriv} (hc : c ∈ children) :
    c.size < size := by
  obtain ⟨hrule, -, rfl, -⟩ := h
  have hw := Grammar.weight_pos_of_mem (List.mem_of_getElem? hrule)
  have hle : c.size ≤ (children.map Deriv.size).sum :=
    List.le_sum_of_mem (List.mem_map_of_mem hc)
  omega

end Deriv

/-! ## Derived terms -/

/-- The term has a derivation of the nonterminal of the size. -/
def Grammar.Derives (g : Grammar) (nt size : Nat) (t : Term) : Prop :=
  ∃ d : Deriv, d.Valid g ∧ d.nt = nt ∧ d.size = size ∧ d.term g = t

namespace Grammar

variable {g : Grammar} {nt size : Nat} {t : Term}

theorem Derives.size_pos (h : g.Derives nt size t) : 1 ≤ size := by
  obtain ⟨d, hd, -, rfl, -⟩ := h
  exact hd.size_pos

/-- Derivations of terms of some nonterminals, one by one. -/
theorem exists_derivs {parts : List (Nat × Term)} {sizes : List Nat}
    (h : List.Forall₂ (fun part size => g.Derives part.1 size part.2) parts sizes) :
    ∃ ds : List Deriv, (∀ d ∈ ds, d.Valid g) ∧ ds.map Deriv.nt = parts.map Prod.fst ∧
      ds.map Deriv.size = sizes ∧ ds.map (Deriv.term g) = parts.map Prod.snd := by
  induction h with
  | nil => exact ⟨[], by simp, rfl, rfl, rfl⟩
  | cons h _ ih =>
    obtain ⟨d, hd, hnt, hsize, hterm⟩ := h
    obtain ⟨ds, hds, hnts, hsizes, hterms⟩ := ih
    exact ⟨d :: ds, List.forall_mem_cons.2 ⟨hd, hds⟩, by simp [hnt, hnts], by simp [hsize, hsizes],
      by simp [hterm, hterms]⟩

/-- A derivation begins with a rule whose template matches the term, and goes on in its holes. -/
theorem derives_iff :
    g.Derives nt size t ↔ ∃ r ∈ g.rulesOf nt, ∃ parts, Term.Matches g.index r.template t parts ∧
      ∃ sizes, List.Forall₂ (fun part size => g.Derives part.1 size part.2) parts sizes ∧
        size = r.weight + sizes.sum := by
  constructor
  · rintro ⟨_, @⟨nt, rule, size, ds, r, hrule, hkids, hsize, hvalid⟩, rfl, rfl, rfl⟩
    have hr := List.mem_of_getElem? hrule
    have length : (ds.map (Deriv.term g)).length = r.children.length := by
      rw [← hkids, List.length_map, List.length_map]
    refine ⟨r, hr, r.children.zip (ds.map (Deriv.term g)), ?_, ds.map Deriv.size, ?_, hsize⟩
    · rw [Deriv.term_node hrule]
      exact matches_instantiate hr length
    · rw [← hkids, List.zip_map', List.forall₂_map_left_iff, List.forall₂_map_right_iff,
        List.forall₂_same]
      exact fun d hd => ⟨d, hvalid d hd, rfl, rfl, rfl⟩
  · rintro ⟨r, hr, parts, hm, sizes, hsizes, rfl⟩
    obtain ⟨rule, hrule⟩ := List.mem_iff_getElem?.1 hr
    obtain ⟨ds, hvalid, hnts, rfl, hterms⟩ := exists_derivs hsizes
    refine ⟨.node nt rule _ ds, .node hrule ?_ rfl hvalid, rfl, rfl, ?_⟩
    · rw [hnts, map_fst_of_matches hr hm]
    · rw [Deriv.term_node hrule, hterms, instantiate_of_matches hm]

/-- What is kept by every rule holds of all terms that are derived. -/
theorem Derives.keeps {P : Nat → Term → Prop}
    (rule : ∀ nt, ∀ r ∈ g.rulesOf nt, ∀ parts t, Term.Matches g.index r.template t parts →
      (∀ part ∈ parts, P part.1 part.2) → P nt t) (h : g.Derives nt size t) : P nt t := by
  induction size using Nat.strong_induction_on generalizing nt t with
  | _ size ih =>
    obtain ⟨r, hr, parts, hm, sizes, hsizes, rfl⟩ := derives_iff.1 h
    refine rule nt r hr parts t hm fun part hpart => ?_
    obtain ⟨size, hsize, hd⟩ := exists_mem_of_forall₂ hsizes hpart
    have hle : size ≤ sizes.sum := List.le_sum_of_mem hsize
    have hw := weight_pos_of_mem hr
    exact ih size (by omega) hd

end Grammar

/-! ## One nonterminal -/

/-- The grammar of one nonterminal `B` of sort Bool. -/
def single (rules : List Term) : Grammar := .ofProductions [⟨"B", .bool⟩] [rules]

/-- The literal is derived if it is one of the rules. -/
theorem derives_single {rules : List Term} {b : Bool} (h : .bool b ∈ rules) :
    (single rules).Derives Grammar.start 1 (.bool b) := by
  have hr : Rule.ofTemplate (single rules).index (.bool b) ∈
      (single rules).rulesOf Grammar.start := by
    simpa [single, Grammar.rulesOf, Grammar.ofProductions, Grammar.start] using ⟨_, h, rfl⟩
  exact Grammar.derives_iff.2 ⟨_, hr, [], .bool b, [], .nil, rfl⟩

end InvariantSearch
