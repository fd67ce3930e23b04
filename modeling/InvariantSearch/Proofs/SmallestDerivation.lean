import InvariantSearch.Grammar.Size
import InvariantSearch.Proofs.Derivations
import InvariantSearch.Proofs.Rounds
import Mathlib.Order.Bounds.Basic

/-!
# The smallest derivation of a term

`Grammar.minSize` is the size of the smallest derivation of a term, and nothing if the term has none
(`isLeast_minSize`). Sizes that are found are compared by their bounds: `AtMost n` says of a size
that it is known and at most `n`, so a minimum of sizes becomes a disjunction and a sum a split of
the bound.

The rounds over the bare rules are a search for shortest paths. A bare rule on a smallest derivation
leads to a smaller size, so as many rounds as there are nonterminals suffice (`Relaxes.knows_iff`),
and a further round changes nothing (`Relaxes.relaxOnce_settle`).

`minSize_spec` says the same of the weights of derivations, which are added up anew from the rules
(`Deriv.weight`).
-/

namespace InvariantSearch

namespace Grammar

/-! ## Bounds on sizes -/

/-- The size is known and at most `n`. -/
def AtMost (n : Nat) (size : Option Nat) : Prop := ∃ s, size = some s ∧ s ≤ n

theorem AtMost.mono {m n : Nat} {size : Option Nat} (h : AtMost m size) (hmn : m ≤ n) :
    AtMost n size := by
  obtain ⟨s, hs, hle⟩ := h
  exact ⟨s, hs, hle.trans hmn⟩

/-- A size is known by its bounds. -/
theorem eq_of_atMost {a b : Option Nat} (h : ∀ n, AtMost n a ↔ AtMost n b) : a = b := by
  have hle {a b : Option Nat} (h : ∀ n, AtMost n a → AtMost n b) {s : Nat} (hs : a = some s) :
      ∃ s' ≤ s, b = some s' := by
    obtain ⟨s', hs', hle⟩ := h s ⟨s, hs, Nat.le_refl s⟩
    exact ⟨s', hle, hs'⟩
  cases a with
  | none =>
    cases b with
    | none => rfl
    | some s =>
      obtain ⟨_, -, hs⟩ := hle (fun n => (h n).2) rfl
      cases hs
  | some s =>
    obtain ⟨s', hs', rfl⟩ := hle (fun n => (h n).1) rfl
    obtain ⟨s'', hs'', heq⟩ := hle (fun n => (h n).2) rfl
    rw [← Option.some.inj heq] at hs''
    rw [Nat.le_antisymm hs'' hs']

theorem atMost_merge {n : Nat} {a b : Option Nat} :
    AtMost n (Option.merge min a b) ↔ AtMost n a ∨ AtMost n b := by
  cases a <;> cases b <;> simp [AtMost]

theorem atMost_map_add {n weight : Nat} {size : Option Nat} :
    AtMost n (size.map (· + weight)) ↔ ∃ m, AtMost m size ∧ m + weight ≤ n := by
  constructor
  · rintro ⟨_, h, hle⟩
    obtain ⟨s, hs, rfl⟩ := Option.map_eq_some_iff.1 h
    exact ⟨s, ⟨s, hs, Nat.le_refl s⟩, hle⟩
  · rintro ⟨m, ⟨s, rfl, hs⟩, hle⟩
    exact ⟨s + weight, rfl, by omega⟩

theorem atMost_foldl_merge {n : Nat} (sizes : List (Option Nat)) (first : Option Nat) :
    AtMost n (sizes.foldl (Option.merge min) first) ↔
      AtMost n first ∨ ∃ size ∈ sizes, AtMost n size := by
  induction sizes generalizing first with
  | nil => simp
  | cons size sizes ih => simp [ih, atMost_merge, or_assoc]

/-- Sizes for all parts, and bounds on them. -/
theorem atMost_sizeOfWay {n : Nat} {sizeOf : Nat × Term → Option Nat} {way : Way} :
    AtMost n (sizeOfWay sizeOf way) ↔ ∃ bounds,
      List.Forall₂ (fun part bound => AtMost bound (sizeOf part)) way.parts bounds ∧
        way.weight + bounds.sum ≤ n := by
  obtain ⟨weight, parts⟩ := way
  show AtMost n ((parts.mapM sizeOf).map fun sizes => sizes.foldl (· + ·) weight) ↔ ∃ bounds,
    List.Forall₂ (fun part bound => AtMost bound (sizeOf part)) parts bounds ∧
      weight + bounds.sum ≤ n
  induction parts generalizing weight with
  | nil => simp [AtMost]
  | cons part parts ih =>
    simp only [List.forall₂_cons_left_iff]
    cases hpart : sizeOf part with
    | none => simp [hpart, AtMost]
    | some s =>
      have hmap : (((part :: parts).mapM sizeOf).map fun sizes => sizes.foldl (· + ·) weight) =
          (parts.mapM sizeOf).map fun sizes => sizes.foldl (· + ·) (weight + s) := by
        rw [List.mapM_cons, hpart]
        cases parts.mapM sizeOf <;> rfl
      rw [hmap, ih]
      constructor
      · rintro ⟨bounds, hbounds, hle⟩
        refine ⟨s :: bounds, ⟨s, bounds, ⟨s, rfl, Nat.le_refl s⟩, hbounds, rfl⟩, ?_⟩
        simp only [List.sum_cons]
        omega
      · rintro ⟨_, ⟨bound, bounds, ⟨s', hs', hs⟩, hbounds, rfl⟩, hle⟩
        obtain rfl := Option.some.inj hs'
        refine ⟨bounds, hbounds, ?_⟩
        simp only [List.sum_cons] at hle
        omega

/-! ## Rounds over the bare rules -/

/-- A size of at most `n` is known for the nonterminal. -/
def Knows (sizes : Array (Option Nat)) (nt n : Nat) : Prop := AtMost n sizes[nt]?.join

section Relax

variable {bare : List (Nat × Nat × Nat)} {sizes : Array (Option Nat)} {nt c weight v m n : Nat}

theorem relaxOnce_cons : relaxOnce ((nt, c, weight) :: bare) sizes =
    (relaxOnce bare sizes).setIfInBounds nt
      (Option.merge min (relaxOnce bare sizes)[nt]?.join
        ((relaxOnce bare sizes)[c]?.join.map (· + weight))) :=
  rfl

@[simp] theorem size_relaxOnce : (relaxOnce bare sizes).size = sizes.size := by
  induction bare with
  | nil => rfl
  | cons rule bare ih => rw [relaxOnce_cons, Array.size_setIfInBounds, ih]

/-- Sizes are known by their bounds. -/
theorem eq_of_knows {sizes' : Array (Option Nat)} (size : sizes'.size = sizes.size)
    (h : ∀ nt n, Knows sizes' nt n ↔ Knows sizes nt n) : sizes' = sizes := by
  refine Array.ext size fun nt h₁ h₂ => eq_of_atMost fun n => ?_
  have hknows := h nt n
  rwa [Knows, Knows, Array.getElem?_eq_getElem h₁, Array.getElem?_eq_getElem h₂] at hknows

/-- One rule lowers the size of its nonterminal alone. -/
theorem knows_relaxOnce_cons : Knows (relaxOnce ((nt, c, weight) :: bare) sizes) v n ↔
    Knows (relaxOnce bare sizes) v n ∨
      v = nt ∧ nt < sizes.size ∧ ∃ m, Knows (relaxOnce bare sizes) c m ∧ m + weight ≤ n := by
  rw [relaxOnce_cons, Knows, Array.getElem?_setIfInBounds]
  by_cases hv : nt = v
  · subst hv
    by_cases hnt : nt < sizes.size
    · rw [if_pos rfl, if_pos (by simpa using hnt), Option.join_some, atMost_merge, atMost_map_add]
      simp [hnt, Knows]
    · rw [if_pos rfl, if_neg (by simpa using hnt)]
      simp [hnt, Knows]
  · rw [if_neg hv]
    simp [Ne.symm hv, Knows]

theorem knows_relaxOnce_of_knows (h : Knows sizes v n) : Knows (relaxOnce bare sizes) v n := by
  induction bare with
  | nil => exact h
  | cons rule bare ih => exact knows_relaxOnce_cons.2 (.inl ih)

/-- A round takes every bare rule once. -/
theorem knows_relaxOnce_of_mem (hmem : (nt, c, weight) ∈ bare) (hnt : nt < sizes.size)
    (h : Knows sizes c m) (hle : m + weight ≤ n) : Knows (relaxOnce bare sizes) nt n := by
  induction bare with
  | nil => simp at hmem
  | cons rule bare ih =>
    rcases List.mem_cons.1 hmem with rfl | hmem
    · exact knows_relaxOnce_cons.2 (.inr ⟨rfl, hnt, m, knows_relaxOnce_of_knows h, hle⟩)
    · exact knows_relaxOnce_cons.2 (.inl (ih hmem))

end Relax

/-- The sizes that bare rules lead to from those known at first, where `P nt n` says that the
nonterminal has a size of at most `n`. -/
structure Relaxes (bare : List (Nat × Nat × Nat)) (sizes : Array (Option Nat))
    (P : Nat → Nat → Prop) : Prop where
  known : ∀ nt n, Knows sizes nt n → P nt n
  step : ∀ nt c weight m n, (nt, c, weight) ∈ bare → P c m → m + weight ≤ n → P nt n
  origin : ∀ nt n, P nt n → nt < sizes.size ∧ (Knows sizes nt n ∨
    ∃ c weight m, (nt, c, weight) ∈ bare ∧ 1 ≤ weight ∧ P c m ∧ m + weight ≤ n)

namespace Relaxes

variable {bare : List (Nat × Nat × Nat)} {sizes : Array (Option Nat)} {P : Nat → Nat → Prop}

/-- What is known after some rounds is right. -/
theorem of_knows (h : Relaxes bare sizes P) (rounds : Nat) {nt n : Nat}
    (hk : Knows (Nat.repeat (relaxOnce bare) rounds sizes) nt n) : P nt n := by
  induction rounds generalizing nt n with
  | zero => exact h.known nt n hk
  | succ rounds ih =>
    have hstep (rules : List (Nat × Nat × Nat)) (hsub : ∀ rule ∈ rules, rule ∈ bare) (nt n : Nat)
        (hk : Knows (relaxOnce rules (Nat.repeat (relaxOnce bare) rounds sizes)) nt n) :
        P nt n := by
      induction rules generalizing nt n with
      | nil => exact ih hk
      | cons rule rules ihs =>
        have hrest := fun nt n => ihs (fun rule hrule => hsub rule (by simp [hrule])) nt n
        rcases knows_relaxOnce_cons.1 hk with hk | ⟨rfl, -, m, hk, hle⟩
        · exact hrest nt n hk
        · exact h.step _ _ _ m n (hsub _ List.mem_cons_self) (hrest _ m hk) hle
    exact hstep bare (fun _ hrule => hrule) nt n hk

@[simp] theorem size_repeat (rounds : Nat) :
    (Nat.repeat (relaxOnce bare) rounds sizes).size = sizes.size := by
  induction rounds with
  | zero => rfl
  | succ rounds ih => rw [Nat.repeat, size_relaxOnce, ih]

theorem knows_repeat_of_knows (rounds : Nat) {nt n : Nat} (h : Knows sizes nt n) :
    Knows (Nat.repeat (relaxOnce bare) rounds sizes) nt n := by
  induction rounds with
  | zero => exact h
  | succ rounds ih => exact knows_relaxOnce_of_knows ih

/-- As many rounds as there are nonterminals find all sizes. -/
theorem knows_iff (h : Relaxes bare sizes P) {nt n : Nat} :
    Knows (settle (relaxOnce bare) sizes.size sizes) nt n ↔ P nt n := by
  rw [settle_eq_repeat]
  refine ⟨h.of_knows sizes.size, fun hP => ?_⟩
  refine known_after_rounds
    (K := fun k nt => ∀ n, P nt n → Knows (Nat.repeat (relaxOnce bare) k sizes) nt n)
    (fun nt n hP => (h.origin nt n hP).1) (fun k nt n hP hleast hknown => ?_) hP n hP
  have hk : Knows (Nat.repeat (relaxOnce bare) (k + 1) sizes) nt n := by
    obtain ⟨hnt, hk | ⟨c, weight, m, hmem, hweight, hc, hle⟩⟩ := h.origin nt n hP
    · exact knows_repeat_of_knows (k + 1) hk
    · exact knows_relaxOnce_of_mem hmem (by simpa using hnt) (hknown c m (by omega) hc m hc) hle
  exact fun n' hP' => hk.mono (Nat.le_of_not_lt fun hlt => hleast n' hlt hP')

/-- After these rounds a further one changes nothing. -/
theorem relaxOnce_settle (h : Relaxes bare sizes P) :
    relaxOnce bare (settle (relaxOnce bare) sizes.size sizes) =
      settle (relaxOnce bare) sizes.size sizes := by
  refine eq_of_knows size_relaxOnce fun nt n => ⟨fun hk => ?_, knows_relaxOnce_of_knows⟩
  rw [settle_eq_repeat] at hk
  exact h.knows_iff.2 (h.of_knows (sizes.size + 1) hk)

end Relaxes

/-! ## Bare rules and other rules -/

section Rules

variable {g : Grammar} {nt n c : Nat} {r : Rule} {t : Term}

/-- A bare rule is the name of a nonterminal. -/
theorem bare?_eq_some_iff (hr : r ∈ g.rulesOf nt) :
    r.bare? = some c ↔ ∃ x, r.template = .id x ∧ g.index x = some c := by
  have hkids := children_eq_of_mem hr
  unfold Rule.bare?
  constructor
  · intro h
    split at h
    next x c' hx hc =>
      obtain rfl := Option.some.inj h
      rw [hx, Term.holes_id, hc] at hkids
      cases hi : g.index x with
      | none => simp [hi] at hkids
      | some c => exact ⟨x, hx, by simpa [hi] using hkids.symm⟩
    next => cases h
  · rintro ⟨x, hx, hc⟩
    rw [hx, Term.holes_id, hc] at hkids
    simp [hx, hkids]

/-- A bare rule derives what its nonterminal derives. -/
theorem matches_bare_iff (hr : r ∈ g.rulesOf nt) (hc : r.bare? = some c)
    {parts : List (Nat × Term)} :
    Term.Matches g.index r.template t parts ↔ parts = [(c, t)] := by
  obtain ⟨x, hx, hi⟩ := (bare?_eq_some_iff hr).1 hc
  rw [← Term.match?_eq_some_iff, hx, Term.match?, hi]
  exact ⟨fun h => (Option.some.inj h).symm, fun h => congrArg some h.symm⟩

theorem mem_bareRules_iff {weight : Nat} : (nt, c, weight) ∈ g.bareRules ↔
    ∃ r ∈ g.rulesOf nt, r.bare? = some c ∧ r.weight = weight := by
  simp only [bareRules, List.mem_flatMap, List.mem_filterMap, Option.map_eq_some_iff,
    Prod.exists, List.mem_zipIdx_iff_getElem?, rulesOf, Prod.mk.injEq]
  constructor
  · rintro ⟨rules, i, hrules, r, hr, c', hc, rfl, rfl, rfl⟩
    exact ⟨r, by simpa [hrules] using hr, hc, rfl⟩
  · rintro ⟨r, hr, hc, rfl⟩
    cases hrules : g.rules[nt]? with
    | none => simp [hrules] at hr
    | some rules => exact ⟨rules, nt, hrules, r, by simpa [hrules] using hr, c, hc, rfl, rfl, rfl⟩

/-- The ways to derive a term are the matches of the rules that are not bare. -/
theorem knows_ways_iff {sizeOf : Nat × Term → Option Nat} :
    Knows ((g.ways t).map fun ws =>
        (ws.map (sizeOfWay sizeOf)).foldl (Option.merge min) none).toArray nt n ↔
      ∃ r ∈ g.rulesOf nt, r.bare? = none ∧ ∃ parts, Term.Matches g.index r.template t parts ∧
        ∃ bounds, List.Forall₂ (fun part bound => AtMost bound (sizeOf part)) parts bounds ∧
          r.weight + bounds.sum ≤ n := by
  have hways : Knows ((g.ways t).map fun ws =>
      (ws.map (sizeOfWay sizeOf)).foldl (Option.merge min) none).toArray nt n ↔
        ∃ way ∈ g.waysBy t (g.rulesOf nt), AtMost n (sizeOfWay sizeOf way) := by
    rw [Knows, List.getElem?_toArray, List.getElem?_map, ways, List.getElem?_map, rulesOf]
    cases hrules : g.rules[nt]? with
    | none => simp [AtMost, waysBy]
    | some rules =>
      have hnone : ¬AtMost n none := by simp [AtMost]
      simp [atMost_foldl_merge, hnone]
  rw [hways]
  constructor
  · rintro ⟨way, hway, hle⟩
    obtain ⟨r, hr, h⟩ := List.mem_filterMap.1 hway
    split at h
    next => cases h
    next hbare =>
      obtain ⟨parts, hm, rfl⟩ := Option.map_eq_some_iff.1 h
      exact ⟨r, hr, hbare, parts, Term.match?_eq_some_iff.1 hm, atMost_sizeOfWay.1 hle⟩
  · rintro ⟨r, hr, hbare, parts, hm, hle⟩
    refine ⟨⟨r.weight, parts⟩, List.mem_filterMap.2 ⟨r, hr, ?_⟩, atMost_sizeOfWay.2 hle⟩
    rw [hbare, hm.match?_eq]
    rfl

end Rules

/-! ## The smallest derivation -/

/-- The term has a derivation of at most the size. -/
def DerivesIn (g : Grammar) (nt n : Nat) (t : Term) : Prop := ∃ m ≤ n, g.Derives nt m t

section

variable {g : Grammar} {nt n : Nat} {t : Term}

/-- Derivations of at most some sizes have sizes of at most their sum. -/
theorem exists_sizes {parts : List (Nat × Term)} {bounds : List Nat}
    (h : List.Forall₂ (fun part bound => g.DerivesIn part.1 bound part.2) parts bounds) :
    ∃ sizes, List.Forall₂ (fun part size => g.Derives part.1 size part.2) parts sizes ∧
      sizes.sum ≤ bounds.sum := by
  induction h with
  | nil => exact ⟨[], .nil, Nat.le_refl _⟩
  | cons h _ ih =>
    obtain ⟨size, hle, hsize⟩ := h
    obtain ⟨sizes, hsizes, hsum⟩ := ih
    refine ⟨size :: sizes, .cons hsize hsizes, ?_⟩
    simp only [List.sum_cons]
    omega

/-- A derivation of at most some size begins with a rule, and goes on within what is left. -/
theorem derivesIn_iff : g.DerivesIn nt n t ↔
    ∃ r ∈ g.rulesOf nt, ∃ parts, Term.Matches g.index r.template t parts ∧
      ∃ bounds, List.Forall₂ (fun part bound => g.DerivesIn part.1 bound part.2) parts bounds ∧
        r.weight + bounds.sum ≤ n := by
  constructor
  · rintro ⟨m, hle, h⟩
    obtain ⟨r, hr, parts, hm, sizes, hsizes, rfl⟩ := derives_iff.1 h
    exact ⟨r, hr, parts, hm, sizes, hsizes.imp fun part size h => ⟨size, Nat.le_refl _, h⟩, hle⟩
  · rintro ⟨r, hr, parts, hm, bounds, hbounds, hle⟩
    obtain ⟨sizes, hsizes, hsum⟩ := exists_sizes hbounds
    exact ⟨r.weight + sizes.sum, by omega, derives_iff.2 ⟨r, hr, parts, hm, sizes, hsizes, rfl⟩⟩

/-- The sizes of a term satisfy the assumptions of the rounds over the bare rules if the sizes of
its parts are right. -/
theorem relaxes_ways {sizeOf : Nat × Term → Option Nat}
    (hparts : ∀ part : Nat × Term, part.2.size < t.size →
      ∀ n, AtMost n (sizeOf part) ↔ g.DerivesIn part.1 n part.2) :
    Relaxes g.bareRules ((g.ways t).map fun ws =>
      (ws.map (sizeOfWay sizeOf)).foldl (Option.merge min) none).toArray
      fun nt n => g.DerivesIn nt n t := by
  -- The parts of a rule that is not bare are smaller than the term.
  have hbounds {nt : Nat} {r : Rule} (hr : r ∈ g.rulesOf nt) (hbare : r.bare? = none)
      {parts : List (Nat × Term)} (hm : Term.Matches g.index r.template t parts)
      (bounds : List Nat) :
      List.Forall₂ (fun part bound => AtMost bound (sizeOf part)) parts bounds ↔
        List.Forall₂ (fun part bound => g.DerivesIn part.1 bound part.2) parts bounds := by
    have hsmall : ∀ part ∈ parts, part.2.size < t.size := by
      refine Term.size_lt_of_match? g.index r.template t parts hm.match?_eq fun x hx => ?_
      cases hi : g.index x with
      | none => rfl
      | some c => simp [(bare?_eq_some_iff hr).2 ⟨x, hx, hi⟩] at hbare
    exact ⟨forall₂_of_mem fun part hpart n _ => (hparts part (hsmall part hpart) n).1,
      forall₂_of_mem fun part hpart n _ => (hparts part (hsmall part hpart) n).2⟩
  refine ⟨fun nt n hk => ?_, fun nt c weight m n hmem hc hle => ?_, fun nt n h => ?_⟩
  · obtain ⟨r, hr, hbare, parts, hm, bounds, hb, hle⟩ := knows_ways_iff.1 hk
    exact derivesIn_iff.2 ⟨r, hr, parts, hm, bounds, (hbounds hr hbare hm bounds).1 hb, hle⟩
  · obtain ⟨r, hr, hbare, rfl⟩ := mem_bareRules_iff.1 hmem
    refine derivesIn_iff.2 ⟨r, hr, [(c, t)], (matches_bare_iff hr hbare).2 rfl, [m], ?_, ?_⟩
    · exact .cons hc .nil
    · simpa [Nat.add_comm] using hle
  · obtain ⟨r, hr, parts, hm, bounds, hb, hle⟩ := derivesIn_iff.1 h
    refine ⟨by simpa [ways] using lt_length_of_mem hr, ?_⟩
    cases hbare : r.bare? with
    | none =>
      exact .inl (knows_ways_iff.2
        ⟨r, hr, hbare, parts, hm, bounds, (hbounds hr hbare hm bounds).2 hb, hle⟩)
    | some c =>
      obtain rfl := (matches_bare_iff hr hbare).1 hm
      obtain ⟨m, bounds, hc, hnil, rfl⟩ := List.forall₂_cons_left_iff.1 hb
      obtain rfl := List.forall₂_nil_left_iff.1 hnil
      refine .inr ⟨c, r.weight, m, mem_bareRules_iff.2 ⟨r, hr, hbare, rfl⟩,
        weight_pos_of_mem hr, hc, ?_⟩
      simpa [Nat.add_comm] using hle

theorem size_sizes_ways (g : Grammar) (t : Term) (sizeOf : Nat × Term → Option Nat) :
    ((g.ways t).map fun ws =>
      (ws.map (sizeOfWay sizeOf)).foldl (Option.merge min) none).toArray.size = g.rules.length := by
  simp [ways]

/-- Sizes computed to a depth that the term does not exceed are those of its derivations. -/
theorem atMost_minSizesTo {depth : Nat} (ht : t.size ≤ depth) :
    AtMost n (g.minSizesTo depth t)[nt]?.join ↔ g.DerivesIn nt n t := by
  induction depth generalizing nt n t with
  | zero => exact absurd t.size_pos (by omega)
  | succ depth ih =>
    have hparts : ∀ part : Nat × Term, part.2.size < t.size →
        ∀ n, AtMost n (g.minSizesTo depth part.2)[part.1]?.join ↔ g.DerivesIn part.1 n part.2 :=
      fun part hpart n => ih (by omega)
    rw [minSizesTo, sizesOf, relax, ← size_sizes_ways]
    exact (relaxes_ways hparts).knows_iff

/-- No round over the bare rules changes the sizes that are computed. -/
theorem relaxOnce_minSizesTo {depth : Nat} (ht : t.size ≤ depth + 1) :
    relaxOnce g.bareRules (g.minSizesTo (depth + 1) t) = g.minSizesTo (depth + 1) t := by
  have hparts : ∀ part : Nat × Term, part.2.size < t.size →
      ∀ n, AtMost n (g.minSizesTo depth part.2)[part.1]?.join ↔ g.DerivesIn part.1 n part.2 :=
    fun part hpart n => atMost_minSizesTo (by omega)
  rw [minSizesTo, sizesOf, relax, ← size_sizes_ways]
  exact (relaxes_ways hparts).relaxOnce_settle

/-- The size that is computed for a term is that of its smallest derivation. -/
theorem atMost_minSize : AtMost n (g.minSize nt t) ↔ g.DerivesIn nt n t := by
  rw [minSize_eq]
  exact atMost_minSizesTo (Nat.le_refl _)

theorem isLeast_minSize {s : Nat} :
    g.minSize nt t = some s ↔ IsLeast {n | g.Derives nt n t} s := by
  constructor
  · intro h
    have hle {n : Nat} (hn : g.Derives nt n t) : s ≤ n := by
      obtain ⟨s', hs', hle⟩ := atMost_minSize.2 ⟨n, Nat.le_refl n, hn⟩
      rw [h] at hs'
      exact Option.some.inj hs' ▸ hle
    obtain ⟨m, hm, hd⟩ := atMost_minSize.1 ⟨s, h, Nat.le_refl s⟩
    refine ⟨?_, fun n hn => hle hn⟩
    rwa [← Nat.le_antisymm hm (hle hd)]
  · rintro ⟨hd, hle⟩
    obtain ⟨s', hs', hle'⟩ := atMost_minSize.2 ⟨s, Nat.le_refl s, hd⟩
    obtain ⟨m, hm, hd'⟩ := atMost_minSize.1 ⟨s', hs', Nat.le_refl s'⟩
    have := hle hd'
    rw [hs', show s' = s by omega]

/-- A size is computed for the terms that have a derivation. -/
theorem exists_minSize (h : g.Derives nt n t) : ∃ s ≤ n, g.minSize nt t = some s := by
  obtain ⟨s, hs, hle⟩ := atMost_minSize.2 ⟨n, Nat.le_refl n, h⟩
  exact ⟨s, hle, hs⟩

end

end Grammar

/-! ## The weight of a derivation -/

namespace Deriv

variable {g : Grammar} {d : Deriv}

mutual

/-- The sum of the weights of the rules, added up along the derivation. -/
def weight (g : Grammar) : Deriv → Nat
  | node nt rule _ children =>
    (((g.rulesOf nt)[rule]?).elim 0 Rule.weight) + weights g children

/-- The weights of derivations taken together. -/
def weights (g : Grammar) : List Deriv → Nat
  | [] => 0
  | d :: ds => weight g d + weights g ds

end

theorem weights_eq_sum (ds : List Deriv) : weights g ds = (ds.map (weight g)).sum := by
  induction ds with
  | nil => rfl
  | cons d ds ih => rw [weights, ih, List.map_cons, List.sum_cons]

/-- The size that a valid derivation carries is its weight. -/
theorem Valid.weight_eq (h : d.Valid g) : d.weight g = d.size := by
  induction h with
  | node hrule _ hsize _ ih =>
    rw [weight, weights_eq_sum, hrule, Option.elim_some, List.map_congr_left ih]
    exact hsize.symm

end Deriv

namespace Grammar

/-- The size that is computed for a term is the least weight of its derivations from the
nonterminal, and nothing is computed if there are none. The computation ends: it goes down to a
depth of at most the size of the term, and as many rounds over the bare rules as there are
nonterminals leave nothing to change. -/
theorem minSize_spec (g : Grammar) (nt : Nat) (t : Term) :
    (∀ s, g.minSize nt t = some s ↔
      IsLeast {n | ∃ d : Deriv, d.Valid g ∧ d.nt = nt ∧ d.term g = t ∧ d.weight g = n} s) ∧
    (g.minSize nt t = none ↔ ∀ d : Deriv, d.Valid g → d.nt = nt → d.term g ≠ t) ∧
    ∀ depth, t.size ≤ depth → (g.minSizesTo depth t)[nt]?.join = g.minSize nt t ∧
      relaxOnce g.bareRules (g.minSizesTo depth t) = g.minSizesTo depth t := by
  refine ⟨fun s => ?_, ⟨fun hnone d hd hnt hterm => ?_, fun hnone => ?_⟩, fun depth ht => ⟨?_, ?_⟩⟩
  · have hset : {n | ∃ d : Deriv, d.Valid g ∧ d.nt = nt ∧ d.term g = t ∧ d.weight g = n} =
        {n | g.Derives nt n t} := by
      ext n
      constructor
      · rintro ⟨d, hd, hnt, hterm, hweight⟩
        exact ⟨d, hd, hnt, hd.weight_eq.symm.trans hweight, hterm⟩
      · rintro ⟨d, hd, hnt, hsize, hterm⟩
        exact ⟨d, hd, hnt, hterm, hd.weight_eq.trans hsize⟩
    rw [hset]
    exact isLeast_minSize
  · obtain ⟨s, -, hs⟩ := exists_minSize (g := g) ⟨d, hd, hnt, rfl, hterm⟩
    rw [hnone] at hs
    cases hs
  · by_contra hsome
    obtain ⟨s, hs⟩ := Option.ne_none_iff_exists'.1 hsome
    obtain ⟨d, hd, hnt, -, hterm⟩ := (isLeast_minSize.1 hs).1
    exact hnone d hd hnt hterm
  · rw [minSize_eq, minSizesTo_eq g depth t.size t ht (Nat.le_refl _)]
  · cases depth with
    | zero => exact absurd t.size_pos (by omega)
    | succ depth => exact relaxOnce_minSizesTo ht

end Grammar

end InvariantSearch
