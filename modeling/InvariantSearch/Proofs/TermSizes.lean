import InvariantSearch.Proofs.Candidates
import InvariantSearch.Proofs.MaximumSize

/-!
# The sizes of derivations and of terms

The nodes of a derivation are those of its term, and its bare nodes besides
(`Deriv.Valid.size_term_add`). So in a grammar without bare rules, as the standard grammars are, the
terms are enumerated by their own sizes, and a bound of the enumeration is a bound on their sizes
(`Enumerator.enumerates_by_size`): unless the grammar has a largest derivation whose size does not
fit into 64 bits. Then the search for it finds less, and cuts the enumeration short
(`Enumerator.tower_cut_short`).
-/

namespace InvariantSearch

/-! ## Nodes of derivations -/

namespace Deriv

variable {g : Grammar}

mutual

/-- The number of nodes whose rules are bare. -/
def bareNodes (g : Grammar) : Deriv → Nat
  | node nt rule _ children =>
    (if ((g.rulesOf nt)[rule]?.bind Rule.bare?).isSome then 1 else 0) + bareNodesAll g children

/-- The number of nodes whose rules are bare in some derivations. -/
def bareNodesAll (g : Grammar) : List Deriv → Nat
  | [] => 0
  | d :: ds => bareNodes g d + bareNodesAll g ds

end

@[simp] theorem bareNodesAll_eq_sum (ds : List Deriv) :
    bareNodesAll g ds = (ds.map (bareNodes g)).sum := by
  induction ds with
  | nil => rfl
  | cons d ds ih => rw [bareNodesAll, ih, List.map_cons, List.sum_cons]

/-- A derivation has the nodes of its term and its bare nodes. -/
theorem Valid.size_term_add {d : Deriv} (h : d.Valid g) :
    (d.term g).size + d.bareNodes g = d.size := by
  induction h with
  | @node nt rule size children r hrule hkids hsize hvalid ih =>
    have hr := List.mem_of_getElem? hrule
    have hlength : (children.map (term g)).length = r.children.length := by
      rw [← hkids, List.length_map, List.length_map]
    have hm := Grammar.matches_instantiate hr hlength
    have hsum : (children.map fun c => (c.term g).size).sum + (children.map (bareNodes g)).sum =
        (children.map Deriv.size).sum := by
      rw [← List.sum_map_add]
      exact congrArg List.sum (List.map_congr_left ih)
    rw [← hkids, List.zip_map'] at hm
    rw [term_node hrule, bareNodes, hrule, Option.bind_some, bareNodesAll_eq_sum, Deriv.size, hsize]
    cases hbare : r.bare? with
    | none =>
      have hterm := Grammar.size_of_matches hr hbare hm
      rw [List.map_map] at hterm
      rw [hterm, ← hsum, Option.isSome_none, if_neg Bool.false_ne_true]
      simp only [Function.comp_def]
      omega
    | some c =>
      -- The only child derives the term itself.
      have hparts := (Grammar.matches_bare_iff hr hbare).1 hm
      obtain ⟨d, rfl, hd⟩ := List.map_eq_singleton_iff.1 hparts
      have hterm : d.term g = g.instantiate r ([d].map (term g)) := (Prod.mk.inj hd).2
      rw [Grammar.weight_of_bare hr hbare, ← hterm, ← hsum, Option.isSome_some, if_pos rfl]
      simp
      omega

end Deriv

/-! ## Grammars without bare rules -/

namespace Grammar

variable {g : Grammar} {nt n : Nat} {t : Term}

/-- No rule is bare. -/
def NoBareRules (g : Grammar) : Prop := ∀ nt, ∀ r ∈ g.rulesOf nt, r.bare? = none

mutual

theorem NoBareRules.bareNodes_eq_zero (h : g.NoBareRules) : (d : Deriv) → d.bareNodes g = 0
  | .node nt rule _ children => by
    have hbare : (g.rulesOf nt)[rule]?.bind Rule.bare? = none :=
      Option.bind_eq_none_iff.2 fun r hr => h nt r (List.mem_of_getElem? hr)
    rw [Deriv.bareNodes, hbare, h.bareNodesAll_eq_zero children]
    rfl

theorem NoBareRules.bareNodesAll_eq_zero (h : g.NoBareRules) :
    (ds : List Deriv) → Deriv.bareNodesAll g ds = 0
  | [] => rfl
  | d :: ds => by rw [Deriv.bareNodesAll, h.bareNodes_eq_zero d, h.bareNodesAll_eq_zero ds]

end

/-- All derivations of a term have its size. -/
theorem NoBareRules.size_eq (h : g.NoBareRules) (hd : g.Derives nt n t) : t.size = n := by
  obtain ⟨d, hvalid, -, rfl, rfl⟩ := hd
  have hsize := hvalid.size_term_add
  rwa [h.bareNodes_eq_zero, Nat.add_zero] at hsize

/-- The smallest derivation of a term has its size. -/
theorem NoBareRules.minSize_eq_some_iff (h : g.NoBareRules) :
    g.minSize start t = some n ↔ t ∈ g.language ∧ t.size = n := by
  constructor
  · intro hmin
    have hd := (isLeast_minSize.1 hmin).1
    exact ⟨⟨n, hd⟩, h.size_eq hd⟩
  · rintro ⟨⟨m, hd⟩, rfl⟩
    obtain ⟨s, -, hs⟩ := exists_minSize hd
    rw [hs, h.size_eq (isLeast_minSize.1 hs).1]

theorem mem_rulesOf_of_production {ts : List Term} (hts : g.productions[nt]? = some ts)
    (ht : t ∈ ts) : Rule.ofTemplate g.index t ∈ g.rulesOf nt := by
  rw [rulesOf, g.rules_eq, List.getElem?_map, hts]
  exact List.mem_map_of_mem ht

theorem noBareRules_of_rules (h : ∀ rules ∈ g.rules, ∀ r ∈ rules, r.bare? = none) :
    g.NoBareRules := fun _ r hr =>
  let ⟨rules, hrules, hr⟩ := exists_rules_of_mem hr
  h rules hrules r hr

/-- A rule is bare only if the name of a nonterminal is a production. -/
theorem noBareRules_of_productions
    (h : ∀ ts ∈ g.productions, ∀ x, .id x ∈ ts → ∀ n ∈ g.nonterminals, n.name ≠ x) :
    g.NoBareRules := by
  intro nt r hr
  refine Option.eq_none_iff_forall_ne_some.2 fun c hc => ?_
  obtain ⟨x, hx, hindex⟩ := (bare?_eq_some_iff hr).1 hc
  obtain ⟨ts, hts, htemplate⟩ := exists_production_of_mem hr
  have hnone : g.index x = none := by
    rw [g.index_eq, Nonterminal.index, List.findIdx?_eq_none_iff]
    simpa using h ts (List.mem_of_getElem? hts) x (hx ▸ htemplate)
  rw [hnone] at hindex
  cases hindex

/-! ### The standard grammars -/

/-- The names that a standard grammar produces are those of parameters. -/
theorem exists_param_of_mem_standard {params : List Binder} {logic : Logic}
    {constants : List Int64} {ts : List Term} {x : String}
    (hts : ts ∈ (standard params logic constants).productions) (hx : .id x ∈ ts) :
    ∃ p ∈ params, p.name = x := by
  have hparam (ty : Ty) (h : ∃ p, (p ∈ params ∧ p.ty = ty) ∧ p.name = x) :
      ∃ p ∈ params, p.name = x :=
    let ⟨p, ⟨hp, _⟩, hname⟩ := h
    ⟨p, hp, hname⟩
  unfold standard at hts
  dsimp only at hts
  split at hts
  next =>
    rcases List.mem_pair.1 hts with rfl | rfl
    · exact hparam .bool (by simpa [Term.not, Term.equals] using hx)
    · exact hparam .int (by simpa using hx)
  next =>
    obtain rfl := List.mem_singleton.1 hts
    exact hparam .bool (by simpa [Term.not] using hx)

theorem exists_freshName_of_mem_standard {params : List Binder} {logic : Logic}
    {constants : List Int64} {n : Nonterminal}
    (hn : n ∈ (standard params logic constants).nonterminals) :
    ∃ name, n.name = freshName (params.map (·.name)) (params.map (·.name)).length name := by
  unfold standard at hn
  dsimp only at hn
  split at hn
  next =>
    rcases List.mem_pair.1 hn with rfl | rfl
    · exact ⟨"Start", rfl⟩
    · exact ⟨"StartInt", rfl⟩
  next =>
    obtain rfl := List.mem_singleton.1 hn
    exact ⟨"Start", rfl⟩

theorem noBareRules_standard (params : List Binder) (logic : Logic) (constants : List Int64) :
    (standard params logic constants).NoBareRules := by
  refine noBareRules_of_productions fun ts hts x hx n hn heq => ?_
  obtain ⟨p, hp, rfl⟩ := exists_param_of_mem_standard hts hx
  obtain ⟨name, hname⟩ := exists_freshName_of_mem_standard hn
  refine freshName_not_mem (params.map (·.name)) name ?_
  rw [← hname, heq]
  exact List.mem_map_of_mem hp

/-- A nonterminal that produces itself among others has ever larger derivations. -/
theorem not_bounded_of_self {r : Rule} (hr : r ∈ g.rulesOf nt)
    (hkids : ∀ c ∈ r.children, g.Productive c) (hself : nt ∈ r.children) : ¬g.Bounded nt := by
  rintro ⟨b, hb⟩
  have hlarger : ∀ k, ∃ n, k ≤ n ∧ g.HasSize nt n := by
    intro k
    induction k with
    | zero =>
      obtain ⟨n, hn⟩ := hkids nt hself
      exact ⟨n, Nat.zero_le n, hn⟩
    | succ k ih =>
      obtain ⟨n, hle, hn⟩ := ih
      obtain ⟨m, hlt, hm⟩ := exists_hasSize_of_child hr hkids hself hn
      exact ⟨m, by omega, hm⟩
  obtain ⟨n, hle, hn⟩ := hlarger (b + 1)
  have := hb n hn
  omega

/-- A standard grammar produces literals and negations. -/
theorem exists_negation_standard (params : List Binder) (logic : Logic) (constants : List Int64) :
    ∃ ts x, (standard params logic constants).productions[0]? = some ts ∧ .bool true ∈ ts ∧
      Term.not (.id x) ∈ ts ∧ (standard params logic constants).index x = some start := by
  unfold standard
  dsimp only
  split
  all_goals
    refine ⟨_, freshName (params.map (·.name)) (params.map (·.name)).length "Start", rfl, by simp,
      by simp, ?_⟩
    rw [Grammar.index_eq]
    simp [ofProductions, Nonterminal.index, List.findIdx?_cons, start]

/-- A standard grammar has ever larger derivations. -/
theorem maxSize_standard (params : List Binder) (logic : Logic) (constants : List Int64) :
    (standard params logic constants).maxSize = none := by
  obtain ⟨ts, x, hts, hliteral, hnegation, hindex⟩ :=
    exists_negation_standard params logic constants
  have hproductive : (standard params logic constants).Productive start :=
    ⟨_, hasSize_of_children (mem_rulesOf_of_production hts hliteral) .nil⟩
  have hkids : (Rule.ofTemplate (standard params logic constants).index
      (Term.not (.id x))).children = [start] := by
    simp [Rule.ofTemplate, Term.holes, Term.not, Term.ids, Term.prependIds, hindex]
  rw [← Option.not_isSome_iff_eq_none, isSome_maxSize_iff]
  refine not_bounded_of_self (mem_rulesOf_of_production hts hnegation) ?_ ?_
  · simpa [hkids] using hproductive
  · simp [hkids]

end Grammar

namespace Enumerator

open Grammar

variable {g : Grammar} {maxSize : Option Nat} {S S' : Set Term} {bound : Nat}

/-! ## Enumerations up to a size -/

/-- The enumeration comes to an end and returns exactly the terms of the set, each once. -/
structure ReturnsExactly (g : Grammar) (maxSize : Option Nat) (S : Set Term) : Prop where
  ends : ∃ ticks n ts e, (new g maxSize).take ticks n = some (ts, e) ∧ ts.length < n
  only : ∀ ticks n ts e, (new g maxSize).take ticks n = some (ts, e) → ts.Nodup ∧ ∀ t ∈ ts, t ∈ S
  all : ∀ ticks n ts e, (new g maxSize).take ticks n = some (ts, e) → ts.length < n →
    ∀ t ∈ S, t ∈ ts

theorem ReturnsExactly.unique (h : ReturnsExactly g maxSize S) (h' : ReturnsExactly g maxSize S') :
    S = S' := by
  obtain ⟨ticks, n, ts, e, htake, hlt⟩ := h.ends
  ext t
  exact ⟨fun ht => (h'.only ticks n ts e htake).2 t (h.all ticks n ts e htake hlt t ht),
    fun ht => (h.only ticks n ts e htake).2 t (h'.all ticks n ts e htake hlt t ht)⟩

theorem exists_limit (g : Grammar) (bound : Nat) :
    ∃ limit, (new g (some bound)).limit = some limit := by
  show ∃ limit, Option.merge min (some bound) g.maxSize = some limit
  cases g.maxSize with
  | none => exact ⟨bound, rfl⟩
  | some size => exact ⟨min bound size, rfl⟩

theorem excludes_new_eq_false_iff {size : Nat} : (new g (some bound)).excludes size = false ↔
    size ≤ bound ∧ ∀ limit, g.maxSize = some limit → size ≤ limit := by
  rw [excludes_eq_false_iff]
  show (∀ limit, Option.merge min (some bound) g.maxSize = some limit → size ≤ limit) ↔ _
  cases g.maxSize <;> simp

/-- An enumeration up to a bound comes to an end and returns the terms within the limit. -/
theorem returnsExactly_includes (g : Grammar) (bound : Nat) :
    ReturnsExactly g (some bound) {t | (new g (some bound)).Includes t} where
  ends := by
    obtain ⟨limit, hlimit⟩ := exists_limit g bound
    obtain ⟨k, hex⟩ := (reached_new g (some bound)).exists_exhausted hlimit
    obtain ⟨ticks, e, htake⟩ := exists_take k _ (new g (some bound)) (.inr ⟨rfl, hex⟩)
    exact ⟨ticks, _, _, e, htake, Nat.lt_succ_self _⟩
  only ticks n ts e htake := by
    obtain ⟨hreached, hlimit, -, -⟩ := (reached_new g (some bound)).take htake
    rw [List.nil_append] at hreached
    obtain ⟨hnodup, hincluded, -⟩ := hreached.out_spec
    exact ⟨hnodup, fun t ht => (includes_congr hlimit).1 (includes_iff.2 (hincluded t ht))⟩
  all ticks n ts e htake hlt t ht := by
    obtain ⟨hreached, hlimit, hend, -⟩ := (reached_new g (some bound)).take htake
    rw [List.nil_append] at hreached
    obtain ⟨s, hs, hexcludes⟩ := includes_iff.1 ((includes_congr hlimit).2 ht)
    exact (hreached.finished (hend hlt)).mem_out hs hexcludes

/-- Without bare rules the terms within the limit are known by their sizes. -/
theorem includes_iff_of_noBareRules (h : g.NoBareRules) {t : Term} :
    (new g (some bound)).Includes t ↔ t ∈ g.language ∧ t.size ≤ bound ∧
      ∀ limit, g.maxSize = some limit → t.size ≤ limit := by
  simp only [includes_iff, excludes_new_eq_false_iff, h.minSize_eq_some_iff]
  exact ⟨fun ⟨s, ⟨ht, hs⟩, hle⟩ => ⟨ht, hs ▸ hle⟩, fun ⟨ht, hle⟩ => ⟨_, ⟨ht, rfl⟩, hle⟩⟩

/-- Without bare rules a bound is one on the sizes of terms just if no term within it is larger than
what the search for the largest derivation has found. -/
theorem returnsExactly_iff (h : g.NoBareRules) :
    ReturnsExactly g (some bound) {t ∈ g.language | t.size ≤ bound} ↔
      ∀ limit, g.maxSize = some limit → ∀ t ∈ g.language, t.size ≤ bound → t.size ≤ limit := by
  have hincludes := returnsExactly_includes g bound
  constructor
  · intro hexact limit hlimit t ht hle
    have hmem : t ∈ {t | (new g (some bound)).Includes t} := by
      rw [hincludes.unique hexact]
      exact ⟨ht, hle⟩
    exact ((includes_iff_of_noBareRules h).1 hmem).2.2 limit hlimit
  · intro hfits
    have hsame : {t ∈ g.language | t.size ≤ bound} = {t | (new g (some bound)).Includes t} := by
      ext t
      refine Iff.trans ?_ (includes_iff_of_noBareRules h).symm
      exact ⟨fun ⟨ht, hle⟩ => ⟨ht, hle, fun limit hlimit => hfits limit hlimit t ht hle⟩,
        fun ⟨ht, hle, _⟩ => ⟨ht, hle⟩⟩
    rw [hsame]
    exact hincludes

/-- Without bare rules terms are returned in the order of their sizes. -/
theorem pairwise_size_of_take (h : g.NoBareRules) {ticks n : Nat} {ts : List Term}
    {e : Enumerator g} (htake : (new g maxSize).take ticks n = some (ts, e)) :
    ts.Pairwise fun t u => t.size ≤ u.size := by
  obtain ⟨hreached, -⟩ := (reached_new g maxSize).take htake
  rw [List.nil_append] at hreached
  obtain ⟨-, hincluded, hordered⟩ := hreached.out_spec
  refine hordered.imp_of_mem fun {t u} ht hu hle => ?_
  obtain ⟨s, hs, -⟩ := hincluded t ht
  obtain ⟨s', hs', -⟩ := hincluded u hu
  rw [(h.minSize_eq_some_iff.1 hs).2, (h.minSize_eq_some_iff.1 hs').2]
  exact hle s s' hs hs'

/-- All bounds are exact if and only if the size of the largest derivation, if there is one, fits
into 64 bits, as the weights of the rules do. -/
theorem returnsExactly_all_iff (h : g.NoBareRules)
    (hweights : ∀ nt, ∀ r ∈ g.rulesOf nt, r.weight < UInt64.size) :
    (∀ bound, ReturnsExactly g (some bound) {t ∈ g.language | t.size ≤ bound}) ↔
      ∀ size, IsGreatest {n | g.HasSize start n} size → size < UInt64.size := by
  simp only [returnsExactly_iff h]
  constructor
  · rintro hfits size ⟨⟨t, hd⟩, hgreatest⟩
    obtain ⟨limit, hlimit⟩ := Option.isSome_iff_exists.1
      (isSome_maxSize_iff.2 ⟨size, fun m hm => hgreatest hm⟩)
    have hle : t.size ≤ limit := hfits t.size limit hlimit t ⟨size, hd⟩ le_rfl
    rw [h.size_eq hd] at hle
    exact hle.trans_lt (maxSize_lt hweights hlimit)
  · rintro hgreatest bound limit hlimit t ⟨n, hd⟩ -
    have hbounded := isSome_maxSize_iff.1 (Option.isSome_iff_exists.2 ⟨limit, hlimit⟩)
    obtain ⟨size, hsize⟩ := (Occurs.start ⟨n, t, hd⟩).exists_isGreatest hbounded
    have hlt := hgreatest size hsize
    rw [h.size_eq hd]
    exact le_maxSize (fun m hm => (hsize.2 hm).trans_lt hlt) hlimit n ⟨t, hd⟩

/-- A derivation has the nodes of its term, and its bare nodes besides. So a grammar without bare
rules is enumerated by the sizes of its terms, and up to a bound exactly the terms of at most this
size are returned, unless the search for the largest derivation has found less: all bounds are exact
if and only if a largest derivation fits into 64 bits. The standard grammars have no bare rules, no
largest derivations, and so exact bounds. -/
theorem enumerates_by_size (g : Grammar) :
    (∀ d : Deriv, d.Valid g → (d.term g).size + d.bareNodes g = d.size) ∧
    (g.NoBareRules →
      (∀ maxSize ticks n ts e, (new g maxSize).take ticks n = some (ts, e) →
        ts.Pairwise fun t u => t.size ≤ u.size) ∧
      (∀ bound, ReturnsExactly g (some bound) {t ∈ g.language | t.size ≤ bound} ↔
        ∀ limit, g.maxSize = some limit → ∀ t ∈ g.language, t.size ≤ bound → t.size ≤ limit) ∧
      ((∀ nt, ∀ r ∈ g.rulesOf nt, r.weight < UInt64.size) →
        ((∀ bound, ReturnsExactly g (some bound) {t ∈ g.language | t.size ≤ bound}) ↔
          ∀ size, IsGreatest {n | g.HasSize start n} size → size < UInt64.size))) ∧
    ∀ params logic constants, (standard params logic constants).NoBareRules ∧
      ∀ bound, ReturnsExactly (standard params logic constants) (some bound)
        {t ∈ (standard params logic constants).language | t.size ≤ bound} := by
  refine ⟨fun d hd => hd.size_term_add, fun h => ?_, fun params logic constants => ?_⟩
  · exact ⟨fun maxSize ticks n ts e => pairwise_size_of_take h, fun bound => returnsExactly_iff h,
      returnsExactly_all_iff h⟩
  · have hbare := noBareRules_standard params logic constants
    refine ⟨hbare, fun bound => (returnsExactly_iff hbare).2 fun limit hlimit => ?_⟩
    rw [maxSize_standard] at hlimit
    cases hlimit

/-- The literals and their negations, up to size 1. -/
theorem enumerates_by_size_negations :
    (single [.bool true, .unary .not (.id "B")]).NoBareRules ∧
    ReturnsExactly (single [.bool true, .unary .not (.id "B")]) (some 1)
      {t ∈ (single [.bool true, .unary .not (.id "B")]).language | t.size ≤ 1} := by
  have hbare : (single [.bool true, .unary .not (.id "B")]).NoBareRules :=
    noBareRules_of_rules (by decide +kernel)
  have hmax : (single [.bool true, .unary .not (.id "B")]).maxSize = none := by decide +kernel
  refine ⟨hbare, (((enumerates_by_size _).2.1 hbare).2.1 1).2 fun limit hlimit => ?_⟩
  rw [hmax] at hlimit
  cases hlimit

/-- In a tower of sixteen levels no rule is bare, and the conjunction of fifteen literals is derived
and has size 16. But the largest derivation has size `2 ^ 64`, for which the search finds 1, and the
enumeration up to size 16 does not return the conjunction. -/
theorem tower_cut_short :
    (tower sixteenLevels).build [] = .ok ((tower sixteenLevels).finish []) ∧
    ((tower sixteenLevels).finish []).NoBareRules ∧
    .nary .and (List.replicate 15 (.bool true)) ∈
      {t ∈ ((tower sixteenLevels).finish []).language | t.size ≤ 16} ∧
    ((tower sixteenLevels).finish []).maxSize = some 1 ∧
    ¬ReturnsExactly ((tower sixteenLevels).finish []) (some 16)
      {t ∈ ((tower sixteenLevels).finish []).language | t.size ≤ 16} := by
  have hbare : ((tower sixteenLevels).finish []).NoBareRules :=
    noBareRules_of_rules (by decide +kernel)
  have hmin : ((tower sixteenLevels).finish []).minSize start
      (.nary .and (List.replicate 15 (.bool true))) = some 16 := by
    rw [minSize_eq]
    decide +kernel
  have hmem := hbare.minSize_eq_some_iff.1 hmin
  have hmax : ((tower sixteenLevels).finish []).maxSize = some 1 := by decide +kernel
  refine ⟨rfl, hbare, ⟨hmem.1, hmem.2.le⟩, hmax, fun hexact => ?_⟩
  have hle := (returnsExactly_iff hbare).1 hexact 1 hmax _ hmem.1 hmem.2.le
  rw [hmem.2] at hle
  omega

end Enumerator

end InvariantSearch
