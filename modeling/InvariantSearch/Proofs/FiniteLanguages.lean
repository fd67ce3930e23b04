import InvariantSearch.Grammar.Builder
import InvariantSearch.Proofs.DepthFirst
import InvariantSearch.Proofs.Enumeration
import Mathlib.Data.Set.Finite.Lattice
import Mathlib.Logic.Relation

/-!
# Grammars with finitely many terms

Each node of a derivation adds to the term unless its rule is bare (`size_of_matches`). So where
no nonterminal leads back to itself by bare rules, large derivations have large terms
(`size_le_of_no_bareCycle`), and if there are finitely many terms, their derivations are bounded. A
nonterminal that does lead back to itself gives a term ever larger derivations.

So the enumeration of finitely many terms comes to an end if and only if no nonterminal that occurs
in a derivation leads back to itself by bare rules (`exhausts_iff_no_bareCycle`).
-/

namespace InvariantSearch

namespace Grammar

variable {g : Grammar} {nt c n : Nat} {r : Rule} {t : Term} {parts : List (Nat × Term)}

/-! ## Sizes of terms and of derivations -/

/-- A rule that is not bare adds its weight to the term. -/
theorem size_of_matches (hr : r ∈ g.rulesOf nt) (hbare : r.bare? = none)
    (hm : Term.Matches g.index r.template t parts) :
    t.size = r.weight + (parts.map fun part => part.2.size).sum := by
  have hsize := hm.size_eq
  have hlength : parts.length = r.children.length := by
    rw [← map_fst_of_matches hr hm, List.length_map]
  have hkids := children_eq_of_mem hr
  have hlt : r.children.length < r.template.size := by
    rw [hkids]
    refine (Term.length_holes_le r.template).2 fun x hx => ?_
    cases hi : g.index x with
    | none => rfl
    | some c => simp [(bare?_eq_some_iff hr).2 ⟨x, hx, hi⟩] at hbare
  rw [weight_eq_of_mem hr]
  omega

theorem weight_of_bare (hr : r ∈ g.rulesOf nt) (hbare : r.bare? = some c) : r.weight = 1 := by
  obtain ⟨x, hx, -⟩ := (bare?_eq_some_iff hr).1 hbare
  rw [weight_eq_of_mem hr, hx, Term.size]
  omega

/-! ## Cycles of bare rules -/

/-- A bare rule leads from one nonterminal to the other. -/
def BareStep (g : Grammar) (nt c : Nat) : Prop := ∃ r ∈ g.rulesOf nt, r.bare? = some c

/-- Bare rules lead from the nonterminal back to itself. -/
def BareCycle (g : Grammar) (nt : Nat) : Prop := Relation.TransGen g.BareStep nt nt

/-- The nonterminal occurs in a derivation of the start symbol. -/
inductive Occurs (g : Grammar) : Nat → Prop
  | start (h : g.Productive start) : Occurs g start
  | child {nt c : Nat} {r : Rule} (h : Occurs g nt) (hr : r ∈ g.rulesOf nt)
      (hkids : ∀ c ∈ r.children, g.Productive c) (hc : c ∈ r.children) : Occurs g c

theorem Occurs.productive (h : g.Occurs nt) : g.Productive nt := by
  induction h with
  | start h => exact h
  | child _ _ hkids hc => exact hkids _ hc

/-- A derivation of a nonterminal that occurs is part of one of the start symbol. -/
theorem Occurs.exists_hasSize (h : g.Occurs nt) (hn : g.HasSize nt n) :
    ∃ m, n ≤ m ∧ g.HasSize Grammar.start m := by
  induction h generalizing n with
  | start => exact ⟨n, Nat.le_refl n, hn⟩
  | child _ hr hkids hc ih =>
    obtain ⟨m, hlt, hm⟩ := exists_hasSize_of_child hr hkids hc hn
    obtain ⟨k, hle, hk⟩ := ih hm
    exact ⟨k, by omega, hk⟩

/-- Bare rules make derivations larger. -/
theorem exists_hasSize_of_bare (h : Relation.TransGen g.BareStep nt c) (hn : g.HasSize c n) :
    ∃ m, n < m ∧ g.HasSize nt m := by
  have hstep {a b k : Nat} (h : g.BareStep a b) (hk : g.HasSize b k) :
      ∃ m, k < m ∧ g.HasSize a m := by
    obtain ⟨r, hr, hbare⟩ := h
    obtain ⟨x, hx, hi⟩ := (bare?_eq_some_iff hr).1 hbare
    have hkids : r.children = [b] := by
      rw [children_eq_of_mem hr, hx, Term.holes_id, hi]
      rfl
    refine exists_hasSize_of_child hr (fun c hc => ?_) (by simp [hkids]) hk
    rw [hkids, List.mem_singleton] at hc
    exact hc ▸ ⟨k, hk⟩
  induction h using Relation.TransGen.head_induction_on with
  | single h => exact hstep h hn
  | head h _ ih =>
    obtain ⟨m, hlt, hm⟩ := ih
    obtain ⟨k, hlt', hk⟩ := hstep h hm
    exact ⟨k, by omega, hk⟩

/-- A cycle of bare rules makes derivations ever larger. -/
theorem not_bounded_of_bareCycle (h : g.Occurs nt) (hcycle : g.BareCycle nt) :
    ¬g.Bounded Grammar.start := by
  rintro ⟨b, hb⟩
  have hlarge (k : Nat) : ∃ m, k ≤ m ∧ g.HasSize nt m := by
    induction k with
    | zero =>
      obtain ⟨m, hm⟩ := h.productive
      exact ⟨m, Nat.zero_le m, hm⟩
    | succ k ih =>
      obtain ⟨m, hle, hm⟩ := ih
      obtain ⟨m', hlt, hm'⟩ := exists_hasSize_of_bare hcycle hm
      exact ⟨m', by omega, hm'⟩
  obtain ⟨m, hle, hm⟩ := hlarge (b + 1)
  obtain ⟨k, hle', hk⟩ := h.exists_hasSize hm
  have := hb k hk
  omega

open Classical in
/-- The nonterminals that bare rules lead to. -/
noncomputable def bareReach (g : Grammar) (nt : Nat) : Finset Nat :=
  (Finset.range g.rules.length).filter fun c => Relation.TransGen g.BareStep nt c

theorem mem_bareReach : c ∈ g.bareReach nt ↔
    c < g.rules.length ∧ Relation.TransGen g.BareStep nt c := by
  simp [bareReach]

theorem card_bareReach_le (g : Grammar) (nt : Nat) : (g.bareReach nt).card ≤ g.rules.length := by
  have hsub : g.bareReach nt ⊆ Finset.range g.rules.length := fun c hc =>
    Finset.mem_range.2 (mem_bareReach.1 hc).1
  simpa using Finset.card_le_card hsub

/-- A bare rule leads to a nonterminal from which fewer are reached, unless there is a cycle. -/
theorem card_bareReach_lt (hstep : g.BareStep nt c) (hc : c < g.rules.length)
    (hcycle : ¬g.BareCycle c) : (g.bareReach c).card < (g.bareReach nt).card := by
  refine Finset.card_lt_card ((Finset.ssubset_iff_of_subset fun u hu => ?_).2
    ⟨c, mem_bareReach.2 ⟨hc, .single hstep⟩, fun hmem => hcycle (mem_bareReach.1 hmem).2⟩)
  obtain ⟨hu, hreach⟩ := mem_bareReach.1 hu
  exact mem_bareReach.2 ⟨hu, .head hstep hreach⟩

theorem sum_le_mul_sum {k : Nat} {sizes : List Nat}
    (h : List.Forall₂ (fun part size => size ≤ k * part.2.size) parts sizes) :
    sizes.sum ≤ k * (parts.map fun part => part.2.size).sum := by
  induction h with
  | nil => exact Nat.zero_le _
  | cons hle _ ih =>
    rw [List.sum_cons, List.map_cons, List.sum_cons, Nat.mul_add]
    exact Nat.add_le_add hle ih

/-- Where there is no cycle of bare rules, a derivation has fewer of them in a row than there are
nonterminals. -/
theorem size_le_of_no_bareCycle (h : ¬∃ nt, g.Occurs nt ∧ g.BareCycle nt) (hnt : g.Occurs nt)
    (hd : g.Derives nt n t) :
    n + g.rules.length ≤ (g.rules.length + 1) * t.size + (g.bareReach nt).card := by
  induction n using Nat.strong_induction_on generalizing nt t with
  | _ n ih =>
    obtain ⟨r, hr, parts, hm, sizes, hsizes, rfl⟩ := derives_iff.1 hd
    have hw := weight_pos_of_mem hr
    have hkids : ∀ c ∈ r.children, g.Productive c := by
      intro c hc
      rw [← map_fst_of_matches hr hm] at hc
      obtain ⟨part, hpart, rfl⟩ := List.mem_map.1 hc
      obtain ⟨size, -, hsize⟩ := exists_mem_of_forall₂ hsizes hpart
      exact ⟨size, part.2, hsize⟩
    have hchild {part : Nat × Term} (hpart : part ∈ parts) : g.Occurs part.1 := by
      refine .child hnt hr hkids ?_
      rw [← map_fst_of_matches hr hm]
      exact List.mem_map_of_mem hpart
    cases hbare : r.bare? with
    | none =>
      have hle : List.Forall₂ (fun part size => size ≤ (g.rules.length + 1) * part.2.size)
          parts sizes := by
        refine forall₂_of_mem (fun part hpart size hsize hd => ?_) hsizes
        have hlt : size ≤ sizes.sum := List.le_sum_of_mem hsize
        have hbound := ih size (by omega) (hchild hpart) hd
        have hreach := g.card_bareReach_le part.1
        omega
      have hsum := sum_le_mul_sum hle
      have hmul : g.rules.length ≤ g.rules.length * r.weight := Nat.le_mul_of_pos_right _ hw
      rw [size_of_matches hr hbare hm, Nat.mul_add, Nat.add_mul]
      omega
    | some c =>
      obtain rfl := (matches_bare_iff hr hbare).1 hm
      obtain ⟨m, sizes, hc, hnil, rfl⟩ := List.forall₂_cons_left_iff.1 hsizes
      obtain rfl := List.forall₂_nil_left_iff.1 hnil
      have hoccurs : g.Occurs c := hchild List.mem_cons_self
      have hlt : c < g.rules.length := by
        obtain ⟨r', hr', -⟩ := derives_iff.1 hc
        exact lt_length_of_mem hr'
      have hreach := card_bareReach_lt ⟨r, hr, hbare⟩ hlt fun hcycle => h ⟨c, hoccurs, hcycle⟩
      have hweight := weight_of_bare hr hbare
      rw [List.sum_singleton] at ih ⊢
      have hbound : m + g.rules.length ≤
          (g.rules.length + 1) * t.size + (g.bareReach c).card := ih m (by omega) hoccurs hc
      omega

/-! ## Finitely many terms -/

/-- The terms that the start symbol derives. -/
def language (g : Grammar) : Set Term := {t | ∃ n, g.Derives start n t}

/-- The derivations of finitely many terms are bounded unless there is a cycle of bare rules. -/
theorem bounded_iff_no_bareCycle (finite : g.language.Finite) :
    g.Bounded start ↔ ¬∃ nt, g.Occurs nt ∧ g.BareCycle nt := by
  constructor
  · rintro h ⟨nt, hnt, hcycle⟩
    exact not_bounded_of_bareCycle hnt hcycle h
  · intro h
    obtain ⟨b, hb⟩ := (finite.image Term.size).bddAbove
    refine ⟨(g.rules.length + 1) * b + g.rules.length, fun n ⟨t, hd⟩ => ?_⟩
    have ht : t.size ≤ b := hb ⟨t, ⟨n, hd⟩, rfl⟩
    have hsize := size_le_of_no_bareCycle h (.start ⟨n, t, hd⟩) hd
    have hreach := g.card_bareReach_le start
    have hmul := Nat.mul_le_mul_left (g.rules.length + 1) ht
    omega

end Grammar

open Grammar Enumerator

/-! ## One nonterminal -/

/-- A grammar in which `B` produces a literal, and perhaps itself, derives the literal alone. -/
theorem eq_of_derives_single {rules : List Term} {b : Bool}
    (hrules : ∀ rule ∈ rules, rule = .bool b ∨ rule = .id "B") {n : Nat} {t : Term}
    (h : (single rules).Derives start n t) : t = .bool b := by
  induction n using Nat.strong_induction_on with
  | _ n ih =>
    obtain ⟨r, hr, parts, hm, sizes, hsizes, rfl⟩ := derives_iff.1 h
    obtain ⟨rule, hrule, rfl⟩ : ∃ rule ∈ rules, Rule.ofTemplate (single rules).index rule = r := by
      simpa [single, rulesOf, ofProductions, start] using hr
    rcases hrules rule hrule with rfl | rfl
    · cases hm
      rfl
    · have hindex : (single rules).index "B" = some 0 := by
        rw [(single rules).index_eq]
        rfl
      have hbare := (bare?_eq_some_iff hr).2 ⟨"B", rfl, hindex⟩
      obtain rfl := (matches_bare_iff hr hbare).1 hm
      obtain ⟨m, sizes, hd, hnil, rfl⟩ := List.forall₂_cons_left_iff.1 hsizes
      obtain rfl := List.forall₂_nil_left_iff.1 hnil
      have hw := weight_pos_of_mem hr
      exact ih m (by rw [List.sum_singleton]; omega) hd

/-! ## The end of an enumeration -/

/-- An enumeration without a bound comes to an end if and only if the largest derivation is
known. -/
theorem ends_iff {g : Grammar} :
    (∃ ticks n ts e, (Enumerator.new g none).take ticks n = some (ts, e) ∧ ts.length < n) ↔
      g.maxSize.isSome = true := by
  have hlimit : (Enumerator.new g none).limit = g.maxSize := by
    show Option.merge min none g.maxSize = g.maxSize
    cases g.maxSize <;> rfl
  constructor
  · rintro ⟨ticks, n, ts, e, htake, hlt⟩
    obtain ⟨hreached, hsame, hend, -⟩ := (reached_new g none).take htake
    have hexcluded := (hreached.finished (hend hlt)).excluded
    rw [excludes, hsame, hlimit] at hexcluded
    cases hmax : g.maxSize with
    | none => simp [hmax] at hexcluded
    | some size => rfl
  · intro h
    obtain ⟨size, hsize⟩ := Option.isSome_iff_exists.1 h
    obtain ⟨k, hex⟩ := (reached_new g none).exists_exhausted (hlimit.trans hsize)
    obtain ⟨ticks, e, htake⟩ := exists_take k _ (Enumerator.new g none) (.inr ⟨rfl, hex⟩)
    exact ⟨ticks, _, _, e, htake, Nat.lt_succ_self _⟩

/-- Let a grammar derive finitely many terms. Its largest derivation is known, and its enumeration
comes to an end, if and only if no nonterminal that occurs leads back to itself by bare rules. At
the end the enumerator is exhausted, and it has returned terms of the grammar alone, and all of them
if the sizes of derivations fit into a 64-bit register. -/
theorem exhausts_iff_no_bareCycle (g : Grammar) (finite : g.language.Finite) :
    (g.maxSize.isSome = true ↔ ¬∃ nt, g.Occurs nt ∧ g.BareCycle nt) ∧
    ((∃ ticks n ts e, (Enumerator.new g none).take ticks n = some (ts, e) ∧ ts.length < n) ↔
      ¬∃ nt, g.Occurs nt ∧ g.BareCycle nt) ∧
    ∀ ticks n ts e, (Enumerator.new g none).take ticks n = some (ts, e) → ts.length < n →
      e.exhausted = true ∧ (∀ t ∈ ts, t ∈ g.language) ∧
        ((∀ n, g.HasSize start n → n < UInt64.size) → ∀ t ∈ g.language, t ∈ ts) := by
  have hsome := isSome_maxSize_iff.trans (bounded_iff_no_bareCycle finite)
  refine ⟨hsome, ends_iff.trans hsome, fun ticks n ts e htake hlt => ?_⟩
  obtain ⟨hreached, hsame, hend, -⟩ := (reached_new g none).take htake
  rw [List.nil_append] at hreached
  refine ⟨hend hlt, fun t ht => ?_, fun hregister t ht => ?_⟩
  · obtain ⟨s, hs, -⟩ := hreached.out_spec.2.1 t ht
    exact ⟨s, (isLeast_minSize.1 hs).1⟩
  · obtain ⟨n, hd⟩ := ht
    obtain ⟨s, hle, hs⟩ := exists_minSize hd
    refine (hreached.finished (hend hlt)).mem_out hs
      (excludes_eq_false_iff.2 fun limit hlimit => ?_)
    have hmax : g.maxSize = some limit := by
      rw [hsame] at hlimit
      have hmerge : Option.merge min none g.maxSize = some limit := hlimit
      cases hmax : g.maxSize <;> simp_all
    exact hle.trans (le_maxSize hregister hmax n ⟨t, hd⟩)

/-- The literals, by a bare rule, and the equations between them. -/
def equations : Grammar :=
  .ofProductions [⟨"B", .bool⟩, ⟨"C", .bool⟩]
    [[.id "C", (Term.id "C").equals (.id "C")], [.bool true, .bool false]]

theorem rulesOf_equations (nt : Nat) : equations.rulesOf nt =
    match nt with
    | 0 => [⟨.id "C", [1], 1⟩, ⟨(Term.id "C").equals (.id "C"), [1, 1], 1⟩]
    | 1 => [⟨.bool true, [], 1⟩, ⟨.bool false, [], 1⟩]
    | _ => [] := by
  match nt with
  | 0 | 1 => decide +kernel
  | _ + 2 => rfl

theorem derives_literal {n : Nat} {t : Term} :
    equations.Derives 1 n t ↔ n = 1 ∧ ∃ b, t = .bool b := by
  rw [derives_iff, rulesOf_equations]
  constructor
  · rintro ⟨r, hr, parts, hm, sizes, hsizes, rfl⟩
    rcases List.mem_pair.1 hr with rfl | rfl
    all_goals
      cases hm
      cases hsizes
      exact ⟨rfl, _, rfl⟩
  · rintro ⟨rfl, b, rfl⟩
    exact ⟨⟨.bool b, [], 1⟩, by cases b <;> simp, [], .bool b, [], .nil, rfl⟩

theorem derives_equations {n : Nat} {t : Term} :
    equations.Derives start n t ↔ (n = 2 ∧ ∃ b, t = .bool b) ∨
      (n = 3 ∧ ∃ b c, t = (Term.bool b).equals (.bool c)) := by
  have hindex : equations.index "C" = some 1 := by
    rw [equations.index_eq]
    rfl
  have hhole {t : Term} {parts : List (Nat × Term)}
      (h : Term.Matches equations.index (.id "C") t parts) : parts = [(1, t)] := by
    cases h with
    | hole h =>
      obtain rfl := Option.some.inj (hindex.symm.trans h)
      rfl
    | id h => cases hindex.symm.trans h
  rw [derives_iff, rulesOf_equations]
  constructor
  · rintro ⟨r, hr, parts, hm, sizes, hsizes, rfl⟩
    rcases List.mem_pair.1 hr with rfl | rfl
    · obtain rfl := hhole hm
      obtain ⟨n, sizes, hd, hnil, rfl⟩ := List.forall₂_cons_left_iff.1 hsizes
      obtain rfl := List.forall₂_nil_left_iff.1 hnil
      obtain ⟨rfl, b, rfl⟩ := derives_literal.1 hd
      exact .inl ⟨rfl, b, rfl⟩
    · cases hm with
      | binary _ hs ht =>
        obtain rfl := hhole hs
        obtain rfl := hhole ht
        rw [List.singleton_append] at hsizes
        obtain ⟨n, sizes, hd, hrest, rfl⟩ := List.forall₂_cons_left_iff.1 hsizes
        obtain ⟨m, sizes, hd', hnil, rfl⟩ := List.forall₂_cons_left_iff.1 hrest
        obtain rfl := List.forall₂_nil_left_iff.1 hnil
        obtain ⟨rfl, b, rfl⟩ := derives_literal.1 hd
        obtain ⟨rfl, c, rfl⟩ := derives_literal.1 hd'
        exact .inr ⟨rfl, b, c, rfl⟩
  · rintro (⟨rfl, b, rfl⟩ | ⟨rfl, b, c, rfl⟩)
    · have hb := derives_literal.2 ⟨rfl, b, rfl⟩
      exact ⟨_, List.mem_cons_self, _, .hole hindex, [1], .cons hb .nil, rfl⟩
    · have hb := derives_literal.2 ⟨rfl, b, rfl⟩
      have hc := derives_literal.2 ⟨rfl, c, rfl⟩
      exact ⟨_, List.mem_cons_of_mem _ List.mem_cons_self, _,
        .binary _ (.hole hindex) (.hole hindex), [1, 1], .cons hb (.cons hc .nil), rfl⟩

theorem language_equations : equations.language =
    {.bool true, .bool false, (Term.bool true).equals (.bool true),
      (Term.bool true).equals (.bool false), (Term.bool false).equals (.bool true),
      (Term.bool false).equals (.bool false)} := by
  ext t
  constructor
  · rintro ⟨n, h⟩
    rcases derives_equations.1 h with ⟨-, b, rfl⟩ | ⟨-, b, c, rfl⟩
    · cases b <;> simp
    · cases b <;> cases c <;> simp
  · rintro (rfl | rfl | rfl | rfl | rfl | rfl)
    · exact ⟨2, derives_equations.2 (.inl ⟨rfl, _, rfl⟩)⟩
    · exact ⟨2, derives_equations.2 (.inl ⟨rfl, _, rfl⟩)⟩
    all_goals exact ⟨3, derives_equations.2 (.inr ⟨rfl, _, _, rfl⟩)⟩

/-- The bare rule leads to a nonterminal without bare rules. -/
theorem not_bareCycle_equations {nt : Nat} : ¬equations.BareCycle nt := by
  have hstep {a b : Nat} (h : equations.BareStep a b) : a = 0 ∧ b = 1 := by
    obtain ⟨r, hr, hbare⟩ := h
    rw [rulesOf_equations] at hr
    match a with
    | 0 =>
      rcases List.mem_pair.1 hr with rfl | rfl
      · exact ⟨rfl, (Option.some.inj hbare).symm⟩
      · cases hbare
    | 1 => rcases List.mem_pair.1 hr with rfl | rfl <;> cases hbare
    | _ + 2 => cases hr
  intro h
  obtain ⟨c, hfirst, -⟩ := (Relation.TransGen.head'_iff).1 h
  obtain ⟨c', -, hlast⟩ := (Relation.TransGen.tail'_iff).1 h
  exact absurd ((hstep hfirst).1.symm.trans (hstep hlast).2) (by decide)

/-- The enumeration of the literals and the equations between them comes to an end, and returns all
six of them. -/
theorem exhausts_equations : equations.language.Finite ∧ equations.maxSize.isSome = true ∧
    ∃ ticks n ts e, (Enumerator.new equations none).take ticks n = some (ts, e) ∧ ts.length < n ∧
      e.exhausted = true ∧ ∀ t, t ∈ ts ↔
        t ∈ ({.bool true, .bool false, (Term.bool true).equals (.bool true),
          (Term.bool true).equals (.bool false), (Term.bool false).equals (.bool true),
          (Term.bool false).equals (.bool false)} : Set Term) := by
  have finite : equations.language.Finite := by
    rw [language_equations]
    exact Set.toFinite _
  have hnone : ¬∃ nt, equations.Occurs nt ∧ equations.BareCycle nt :=
    fun ⟨_, _, hcycle⟩ => not_bareCycle_equations hcycle
  have hregister : ∀ n, equations.HasSize start n → n < UInt64.size := by
    rintro n ⟨t, h⟩
    rcases derives_equations.1 h with ⟨rfl, -⟩ | ⟨rfl, -⟩ <;> decide
  obtain ⟨hmax, hends, hall⟩ := exhausts_iff_no_bareCycle equations finite
  obtain ⟨ticks, n, ts, e, htake, hlt⟩ := hends.2 hnone
  obtain ⟨hexhausted, honly, hterms⟩ := hall ticks n ts e htake hlt
  refine ⟨finite, hmax.2 hnone, ticks, n, ts, e, htake, hlt, hexhausted, fun t => ?_⟩
  rw [← language_equations]
  exact ⟨honly t, hterms hregister t⟩

/-- A grammar can be built that derives one term alone, by ever larger derivations. No size of a
largest derivation is known for it, and its enumeration has no end. -/
theorem bareLoop_not_exhausted : ∃ g,
    (do
      let b ← (GrammarBuilder.new [] .lia).declare "B" .bool
      let b ← b.addRule "B" (.bool true)
      let b ← b.addRule "B" (.id "B")
      b.build []) = .ok g ∧
    g.language = {.bool true} ∧ g.maxSize = none ∧
    ¬∃ ticks n ts e, (Enumerator.new g none).take ticks n = some (ts, e) ∧ ts.length < n := by
  have hloop : ∀ rule ∈ [Term.bool true, .id "B"], rule = .bool true ∨ rule = .id "B" := by simp
  have hlanguage : (single [.bool true, .id "B"]).language = {.bool true} := by
    ext t
    refine ⟨fun ⟨n, h⟩ => eq_of_derives_single hloop h, ?_⟩
    rintro rfl
    exact ⟨1, derives_single (by simp)⟩
  have hcycle : (single [.bool true, .id "B"]).BareCycle start := by
    have hr : Rule.ofTemplate (single [.bool true, .id "B"]).index (.id "B") ∈
        (single [.bool true, .id "B"]).rulesOf start := by
      simp [single, rulesOf, ofProductions, start]
    have hindex : (single [.bool true, .id "B"]).index "B" = some start := by
      rw [(single [.bool true, .id "B"]).index_eq]
      rfl
    exact .single ⟨_, hr, (bare?_eq_some_iff hr).2 ⟨"B", rfl, hindex⟩⟩
  have hproductive : (single [.bool true, .id "B"]).Productive start :=
    ⟨1, .bool true, derives_single (by simp)⟩
  have hmax : (single [.bool true, .id "B"]).maxSize.isSome = false := by
    have h := not_bounded_of_bareCycle (.start hproductive) hcycle
    rwa [← isSome_maxSize_iff, Bool.not_eq_true] at h
  refine ⟨single [.bool true, .id "B"], rfl, hlanguage, by simpa using hmax, ?_⟩
  rw [ends_iff, hmax]
  exact Bool.false_ne_true

end InvariantSearch
