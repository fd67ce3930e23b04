import InvariantSearch.Grammar.Builder
import InvariantSearch.Proofs.FiniteLanguages
import Mathlib.Data.Set.Finite.List

/-!
# The constants of a grammar

A grammar is finished with the constants that occur in a problem. More constants give it more terms,
but derivations of the same sizes (`GrammarBuilder.build_constants`): where a nonterminal may
produce any constant it produces 0 and 1 in any case, and all constants are nodes without holes. So
a grammar that derives finitely many terms without the constants also does with them.

Two grammars have derivations of the same sizes if each rule of one has a rule of the other with as
many nodes and the same holes (`Grammar.ShapesIn`). For the search for the largest derivation it
does not matter how often such a rule is repeated, and for what sums it forms
(`Grammar.maxSizeWith_eq_of_shapes`).
-/

namespace InvariantSearch

/-- Erasing repetitions leaves none. -/
theorem nodup_eraseDups {α : Type} [BEq α] [LawfulBEq α] (as : List α) : as.eraseDups.Nodup := by
  induction hlength : as.length using Nat.strong_induction_on generalizing as with
  | _ n ih =>
    cases as with
    | nil => exact List.nodup_nil
    | cons a as =>
      have hlt : (as.filter fun b => !b == a).length < n := by
        rw [← hlength, List.length_cons]
        exact Nat.lt_succ_of_le (List.length_filter_le _ _)
      rw [List.eraseDups_cons, List.nodup_cons]
      exact ⟨by simp [List.mem_eraseDups], ih _ hlt _ rfl⟩

/-- Lists of one length over a finite set. -/
theorem finite_lists {α : Type} {s : Set α} (hs : s.Finite) (n : Nat) :
    {as : List α | as.length = n ∧ ∀ a ∈ as, a ∈ s}.Finite := by
  have : Finite s := hs
  refine ((List.finite_length_eq s n).image (List.map Subtype.val)).subset ?_
  rintro as ⟨hlength, hmem⟩
  lift as to List s using hmem
  exact ⟨as, by simpa using hlength, rfl⟩

namespace Grammar

variable {g g' : Grammar} {nt n size rounds : Nat} {r : Rule} {t : Term} {add : Nat → Nat → Nat}

/-! ## Rules of the same shapes -/

/-- Each rule of a nonterminal has one in the other grammar with as many nodes and the same
holes. -/
def ShapesIn (g g' : Grammar) : Prop :=
  ∀ nt, ∀ r ∈ g.rulesOf nt, ∃ r' ∈ g'.rulesOf nt,
    r'.template.size = r.template.size ∧ r'.children = r.children

theorem ShapesIn.weight_eq {r' : Rule} (hr : r ∈ g.rulesOf nt) (hr' : r' ∈ g'.rulesOf nt)
    (hsize : r'.template.size = r.template.size) (hkids : r'.children = r.children) :
    r'.weight = r.weight := by
  rw [weight_eq_of_mem hr', weight_eq_of_mem hr, hsize, hkids]

/-- Terms as large as the parts, in their places. -/
theorem exists_parts {parts : List (Nat × Term)} {sizes : List Nat}
    (h : List.Forall₂ (fun part size => ∃ t, g.Derives part.1 size t ∧ t.size = part.2.size)
      parts sizes) :
    ∃ parts', parts'.map Prod.fst = parts.map Prod.fst ∧
      (parts'.map fun part => part.2.size) = (parts.map fun part => part.2.size) ∧
      List.Forall₂ (fun part size => g.Derives part.1 size part.2) parts' sizes := by
  induction h with
  | nil => exact ⟨[], rfl, rfl, .nil⟩
  | @cons part size parts sizes hpart _ ih =>
    obtain ⟨t, hd, hsize⟩ := hpart
    obtain ⟨parts', hfst, hsum, hparts⟩ := ih
    exact ⟨(part.1, t) :: parts', by simp [hfst], by simp [hsum, hsize], .cons hd hparts⟩

/-- A derivation has one of the same size in the other grammar, of a term as large. -/
theorem ShapesIn.exists_derives (h : g.ShapesIn g') (hd : g.Derives nt n t) :
    ∃ t', g'.Derives nt n t' ∧ t'.size = t.size := by
  induction n using Nat.strong_induction_on generalizing nt t with
  | _ n ih =>
    obtain ⟨r, hr, parts, hm, sizes, hsizes, rfl⟩ := derives_iff.1 hd
    obtain ⟨r', hr', hsize, hkids⟩ := h nt r hr
    have hpos := weight_pos_of_mem hr
    obtain ⟨parts', hfst, hsum, hparts'⟩ := exists_parts (g := g') <|
      forall₂_of_mem (fun part _ size hmem hd => by
        have hle : size ≤ sizes.sum := List.le_sum_of_mem hmem
        exact ih size (by omega) hd) hsizes
    have hchildren : parts'.map Prod.fst = r'.children := by
      rw [hfst, map_fst_of_matches hr hm, hkids]
    have hlength : (parts'.map Prod.snd).length = r'.children.length := by
      rw [← hchildren, List.length_map, List.length_map]
    have hm' := matches_instantiate hr' hlength
    rw [← hchildren, List.zip_map', List.map_id'] at hm'
    refine ⟨_, derives_iff.2 ⟨r', hr', parts', hm', sizes, hparts', ?_⟩, ?_⟩
    · rw [ShapesIn.weight_eq hr hr' hsize hkids]
    · have heq := hm.size_eq
      have heq' := hm'.size_eq
      have hlengths : parts'.length = parts.length := by simpa using congrArg List.length hfst
      rw [hsum] at heq'
      omega

theorem ShapesIn.hasSize (h : g.ShapesIn g') (hn : g.HasSize nt n) : g'.HasSize nt n :=
  let ⟨_, ht⟩ := hn
  let ⟨t', hd, _⟩ := h.exists_derives ht
  ⟨t', hd⟩

theorem ShapesIn.productive (h : g.ShapesIn g') (hnt : g.Productive nt) : g'.Productive nt :=
  hnt.imp fun _ => h.hasSize

theorem ShapesIn.exists_usefulRule (h : g.ShapesIn g') (hr : r ∈ g.usefulRulesOf nt) :
    ∃ r' ∈ g'.usefulRulesOf nt, r'.weight = r.weight ∧ r'.children = r.children := by
  obtain ⟨hr, hproductive⟩ := mem_usefulRulesOf.1 hr
  obtain ⟨r', hr', hsize, hkids⟩ := h nt r hr
  have huseful : r' ∈ g'.usefulRulesOf nt := mem_usefulRulesOf.2
    ⟨hr', fun c hc => h.productive (hproductive c (hkids ▸ hc))⟩
  exact ⟨r', huseful, ShapesIn.weight_eq hr hr' hsize hkids, hkids⟩

/-! ## The largest derivation -/

/-- Two lists of the same numbers have the same largest number. -/
theorem foldl_max_eq {first : Nat} {as bs : List Nat} (h : ∀ a, a ∈ as ↔ a ∈ bs) :
    as.foldl max first = bs.foldl max first := by
  have hle {as bs : List Nat} (h : ∀ a ∈ as, a ∈ bs) :
      as.foldl max first ≤ bs.foldl max first := by
    obtain ⟨-, hfirst, hbs⟩ := foldl_max_spec first bs
    rcases (foldl_max_spec first as).1 with heq | hmem
    · rwa [heq]
    · exact hbs _ (h _ hmem)
  exact Nat.le_antisymm (hle fun a => (h a).1) (hle fun a => (h a).2)

/-- What the rounds find depends on the shapes of the rules alone. -/
theorem largest_of_shapes (h : g.ShapesIn g') (h' : g'.ShapesIn g)
    (hlength : g'.rules.length = g.rules.length) (hlargest : g.largest add rounds nt = some size) :
    g'.largest add rounds nt = some size := by
  induction rounds generalizing nt size with
  | zero => simp at hlargest
  | succ rounds ih =>
    obtain ⟨hlt, values, hvalues, rfl⟩ := largest_succ_iff.1 hlargest
    have hback : ∀ r' ∈ g'.usefulRulesOf nt, ∃ value, value ∈ values ∧ ∃ sizes,
        List.Forall₂ (fun c size => g'.largest add rounds c = some size) r'.children sizes ∧
          sizes.foldl add r'.weight = value := by
      intro r' hr'
      obtain ⟨r, hr, hweight, hkids⟩ := h'.exists_usefulRule hr'
      obtain ⟨value, hmem, sizes, hsizes, hvalue⟩ := exists_mem_of_forall₂ hvalues hr
      rw [← hkids, ← hweight]
      exact ⟨value, hmem, sizes, hsizes.imp fun _ _ => ih, hvalue⟩
    obtain ⟨values', hvalues'⟩ := exists_forall₂ hback
    refine largest_succ_iff.2 ⟨hlength ▸ hlt, values', hvalues'.imp fun _ _ h => h.2, ?_⟩
    refine foldl_max_eq fun value => ⟨fun hvalue => ?_, fun hvalue => ?_⟩
    · obtain ⟨_, -, hmem, -⟩ := exists_mem_of_forall₂ hvalues'.flip hvalue
      exact hmem
    · obtain ⟨r, hr, sizes, hsizes, rfl⟩ := exists_mem_of_forall₂ hvalues.flip hvalue
      obtain ⟨r', hr', hweight, hkids⟩ := h.exists_usefulRule hr
      obtain ⟨value', hmem, -, sizes', hsizes', rfl⟩ := exists_mem_of_forall₂ hvalues' hr'
      rw [hkids] at hsizes'
      have hsame : sizes' = sizes := Option.some.inj <|
        (mapM_eq_some_iff.2 hsizes').symm.trans (mapM_eq_some_iff.2 (hsizes.imp fun _ _ => ih))
      rwa [hsame, hweight] at hmem

/-- What the search finds depends on the shapes of the rules alone. -/
theorem maxSizeWith_eq_of_shapes (h : g.ShapesIn g') (h' : g'.ShapesIn g)
    (hlength : g'.rules.length = g.rules.length) : g'.maxSizeWith add = g.maxSizeWith add := by
  have hproductive : Known g'.productive start ↔ Known g.productive start := by
    rw [productive_iff, productive_iff]
    exact ⟨h'.productive, h.productive⟩
  have hlargest : g'.largest add g'.rules.length start = g.largest add g.rules.length start := by
    rw [hlength]
    exact Option.ext fun size =>
      ⟨largest_of_shapes h' h hlength.symm, largest_of_shapes h h' hlength⟩
  rw [maxSizeWith_eq, maxSizeWith_eq, hlargest]
  simp only [hproductive]

/-! ## Finitely many terms -/

/-- A derived term is a rule that is not bare, with derived terms in its holes. -/
theorem exists_rule_of_derives (h : g.Derives nt n t) :
    ∃ r ∈ g.rules.flatten, ∃ ts : List Term, ts.length = r.children.length ∧
      (∀ u ∈ ts, u.size < t.size ∧ ∃ nt n, g.Derives nt n u) ∧ g.instantiate r ts = t := by
  induction n using Nat.strong_induction_on generalizing nt with
  | _ n ih =>
    obtain ⟨r, hr, parts, hm, sizes, hsizes, rfl⟩ := derives_iff.1 h
    cases hbare : r.bare? with
    | none =>
      obtain ⟨rules, hrules, hmem⟩ := exists_rules_of_mem hr
      refine ⟨r, List.mem_flatten_of_mem hrules hmem, parts.map Prod.snd, ?_, fun u hu => ?_,
        instantiate_of_matches hm⟩
      · rw [← map_fst_of_matches hr hm, List.length_map, List.length_map]
      · obtain ⟨part, hpart, rfl⟩ := List.mem_map.1 hu
        obtain ⟨size, -, hd⟩ := exists_mem_of_forall₂ hsizes hpart
        refine ⟨?_, part.1, size, hd⟩
        have hle : part.2.size ≤ (parts.map fun part => part.2.size).sum :=
          List.le_sum_of_mem (List.mem_map_of_mem hpart)
        have hpos := weight_pos_of_mem hr
        rw [size_of_matches hr hbare hm]
        omega
    | some c =>
      obtain rfl := (matches_bare_iff hr hbare).1 hm
      obtain ⟨m, sizes, hd, hnil, rfl⟩ := List.forall₂_cons_left_iff.1 hsizes
      obtain rfl := List.forall₂_nil_left_iff.1 hnil
      have hpos := weight_pos_of_mem hr
      exact ih m (by rw [List.sum_singleton]; omega) hd

/-- There are finitely many derived terms of each size. -/
theorem finite_of_size_le (g : Grammar) (n : Nat) :
    {t | t.size ≤ n ∧ ∃ nt m, g.Derives nt m t}.Finite := by
  induction n with
  | zero =>
    refine Set.finite_empty.subset fun t ht => ?_
    have := t.size_pos
    have := ht.1
    omega
  | succ n ih =>
    refine ((List.finite_toSet g.rules.flatten).biUnion fun r _ =>
      (finite_lists ih r.children.length).image (g.instantiate r)).subset ?_
    rintro t ⟨hle, nt, m, hd⟩
    obtain ⟨r, hr, ts, hlength, hts, heq⟩ := exists_rule_of_derives hd
    refine Set.mem_biUnion hr ⟨ts, ⟨hlength, fun u hu => ?_⟩, heq⟩
    obtain ⟨hlt, hu⟩ := hts u hu
    exact ⟨by omega, hu⟩

/-- A grammar derives finitely many terms if one with the shapes of its rules does. -/
theorem ShapesIn.finite_language (h : g.ShapesIn g') (finite : g'.language.Finite) :
    g.language.Finite := by
  obtain ⟨b, hb⟩ := (finite.image Term.size).bddAbove
  refine (g.finite_of_size_le b).subset fun t ⟨n, hd⟩ => ?_
  obtain ⟨t', hd', hsize⟩ := h.exists_derives hd
  exact ⟨hsize ▸ hb ⟨t', ⟨n, hd'⟩, rfl⟩, start, n, hd⟩

/-- More rules derive more terms. -/
theorem Derives.mono (hindex : g'.index = g.index) (hrules : ∀ nt, g.rulesOf nt ⊆ g'.rulesOf nt)
    (h : g.Derives nt n t) : g'.Derives nt n t := by
  induction n using Nat.strong_induction_on generalizing nt t with
  | _ n ih =>
    obtain ⟨r, hr, parts, hm, sizes, hsizes, rfl⟩ := derives_iff.1 h
    have hpos := weight_pos_of_mem hr
    refine derives_iff.2 ⟨r, hrules nt hr, parts, hindex ▸ hm, sizes, ?_, rfl⟩
    refine forall₂_of_mem (fun part _ size hmem hd => ih size ?_ hd) hsizes
    have hle : size ≤ sizes.sum := List.le_sum_of_mem hmem
    omega

end Grammar

namespace GrammarBuilder

open Grammar

variable {b : GrammarBuilder} {few many constants : List Int64} {nt : Nat} {r : Rule}

/-! ## What nonterminals may produce -/

theorem mem_ascending {i : Int64} {ws : List Int64} : i ∈ ascending ws ↔ i ∈ ws := by
  rw [ascending, List.mem_mergeSort, List.mem_eraseDups]

theorem expand_subset (hsub : ∀ i ∈ few, i ∈ many) (ty : Ty) (spec : RuleSpec) :
    b.expand few ty spec ⊆ b.expand many ty spec := by
  cases spec with
  | term t => exact List.Subset.refl _
  | anyConstant =>
    cases ty with
    | bool => exact List.Subset.refl _
    | int =>
      refine List.map_subset _ (List.cons_subset_cons 0 (List.cons_subset_cons 1 fun i hi => ?_))
      exact mem_ascending.2 (hsub i (mem_ascending.1 hi))
  | anyVariable => exact List.Subset.refl _

/-- With other constants a nonterminal may produce a template of the same shape. -/
theorem exists_shape (many : List Int64) (index : String → Option Nat) {ty : Ty}
    {spec : RuleSpec} {t : Term} (ht : t ∈ b.expand few ty spec) :
    ∃ t' ∈ b.expand many ty spec, t'.size = t.size ∧ t'.holes index = t.holes index := by
  cases spec with
  | term u => exact ⟨t, ht, rfl, rfl⟩
  | anyConstant =>
    cases ty with
    | bool => exact ⟨t, ht, rfl, rfl⟩
    | int =>
      obtain ⟨i, -, rfl⟩ := List.mem_map.1 ht
      exact ⟨.int 0, List.mem_map_of_mem List.mem_cons_self, rfl, rfl⟩
  | anyVariable => exact ⟨t, ht, rfl, rfl⟩

/-! ## Finished grammars -/

theorem rulesOf_finish (nt : Nat) : (b.finish constants).rulesOf nt =
    ((b.entries[nt]?).map fun e => ((e.2.flatMap (b.expand constants e.1.ty)).eraseDups).map
      (Rule.ofTemplate (Nonterminal.index b.nonterminals))).getD [] := by
  have hindex : (b.finish constants).index = Nonterminal.index b.nonterminals :=
    (b.finish constants).index_eq
  rw [rulesOf, (b.finish constants).rules_eq, hindex]
  show (((b.entries.map _).map _)[nt]?).getD [] = _
  rw [List.map_map, List.getElem?_map]
  rfl

theorem mem_rulesOf_finish : r ∈ (b.finish constants).rulesOf nt ↔
    ∃ e ∈ b.entries[nt]?, ∃ spec ∈ e.2, ∃ t ∈ b.expand constants e.1.ty spec,
      r = .ofTemplate (Nonterminal.index b.nonterminals) t := by
  rw [rulesOf_finish]
  cases b.entries[nt]? with
  | none => simp
  | some e =>
    simp only [Option.map_some, Option.getD_some, List.mem_map, List.mem_eraseDups,
      List.mem_flatMap, Option.mem_some, exists_eq_left']
    constructor
    · rintro ⟨t, ⟨spec, hspec, ht⟩, rfl⟩
      exact ⟨spec, hspec, t, ht, rfl⟩
    · rintro ⟨spec, hspec, t, ht, rfl⟩
      exact ⟨t, ⟨spec, hspec, ht⟩, rfl⟩

theorem nodup_rulesOf_finish (nt : Nat) : ((b.finish constants).rulesOf nt).Nodup := by
  rw [rulesOf_finish]
  cases b.entries[nt]? with
  | none => exact List.nodup_nil
  | some e => exact (nodup_eraseDups _).map fun t t' h => congrArg Rule.template h

theorem shapesIn_finish (b : GrammarBuilder) (few many : List Int64) :
    (b.finish few).ShapesIn (b.finish many) := by
  intro nt r hr
  obtain ⟨e, he, spec, hspec, t, ht, rfl⟩ := mem_rulesOf_finish.1 hr
  obtain ⟨t', ht', hsize, hholes⟩ := exists_shape many _ ht
  exact ⟨_, mem_rulesOf_finish.2 ⟨e, he, spec, hspec, t', ht', rfl⟩, hsize, hholes⟩

theorem build_eq_ok {g : Grammar} (h : b.build constants = .ok g) : g = b.finish constants := by
  rw [build] at h
  split at h
  · cases h
  · exact (Except.ok.inj h).symm

/-- With more constants a grammar that is built has the same nonterminals, and they derive the same
terms and perhaps more, but the search for the largest derivation finds the same size. If the
language was finite, it still is. No rule of a nonterminal is repeated, in whatever ways the
nonterminal may produce it. -/
theorem build_constants {g g' : Grammar} (hsub : ∀ i ∈ few, i ∈ many)
    (hg : b.build few = .ok g) (hg' : b.build many = .ok g') :
    g'.nonterminals = g.nonterminals ∧
    (∀ nt n t, g.Derives nt n t → g'.Derives nt n t) ∧
    g'.maxSize = g.maxSize ∧
    (g.language.Finite → g'.language.Finite) ∧
    ∀ nt, (g.rulesOf nt).Nodup ∧ (g'.rulesOf nt).Nodup := by
  obtain rfl := build_eq_ok hg
  obtain rfl := build_eq_ok hg'
  have hindex : (b.finish many).index = (b.finish few).index := by
    rw [(b.finish many).index_eq, (b.finish few).index_eq]
    rfl
  have hlength : (b.finish many).rules.length = (b.finish few).rules.length := by
    rw [(b.finish many).rules_eq, (b.finish few).rules_eq]
    simp [finish, ofProductions]
  have hrules : ∀ nt, (b.finish few).rulesOf nt ⊆ (b.finish many).rulesOf nt := by
    intro nt r hr
    obtain ⟨e, he, spec, hspec, t, ht, rfl⟩ := mem_rulesOf_finish.1 hr
    exact mem_rulesOf_finish.2 ⟨e, he, spec, hspec, t, expand_subset hsub _ _ ht, rfl⟩
  have hshapes := b.shapesIn_finish few many
  have hshapes' := b.shapesIn_finish many few
  exact ⟨rfl, fun nt n t => Derives.mono hindex hrules,
    maxSizeWith_eq_of_shapes hshapes hshapes' hlength, hshapes'.finite_language,
    fun nt => ⟨nodup_rulesOf_finish nt, nodup_rulesOf_finish nt⟩⟩

/-- A parameter is at most a constant, among them 7 in any case. -/
def thresholds : GrammarBuilder :=
  { params := [⟨"x", .int⟩]
    logic := .lia
    entries := [(⟨"B", .bool⟩, [.term (.compare .le (.id "x") (.id "I"))]),
      (⟨"I", .int⟩, [.term (.int 7), .anyConstant])] }

theorem build_constants_thresholds :
    (thresholds.finish [7, 12]).maxSize = (thresholds.finish []).maxSize ∧
    (thresholds.finish []).maxSize = some 3 ∧
    ((thresholds.finish [7, 12]).rulesOf 1).Nodup := by
  have hsub : ∀ i ∈ ([] : List Int64), i ∈ [7, 12] := by simp
  have hfew : thresholds.build [] = .ok (thresholds.finish []) := rfl
  have hmany : thresholds.build [7, 12] = .ok (thresholds.finish [7, 12]) := rfl
  have hconstants := build_constants hsub hfew hmany
  exact ⟨hconstants.2.2.1, by decide +kernel, (hconstants.2.2.2.2 1).2⟩

end GrammarBuilder

end InvariantSearch
