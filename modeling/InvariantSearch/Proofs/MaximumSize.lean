import InvariantSearch.Proofs.FiniteLanguages

/-!
# The size of the largest derivation

With exact sums the search returns the size of the largest derivation, zero where there is no
derivation, and nothing where derivations become ever larger (`maxSizeWith_add_spec`). What it
returns depends on the productive rules alone that lead on from the start symbol: two grammars in
which these correspond have the same largest size (`Corresponds`).

In a register of 64 bits sums are exact if and only if the size of the largest derivation fits
(`partialSum_fits_iff`): all sums that are formed on the way are parts of it. Nothing keeps a
grammar from having larger derivations, as a tower of nonterminals has (`tower_wraps`).
-/

namespace InvariantSearch

/-- Elements that are related to those of one list are related to what these are related to. -/
theorem forall₂_transfer {α β γ : Type} {R : α → β → Prop} {S : α → γ → Prop} {T : β → γ → Prop}
    {as : List α} {bs : List β} {cs : List γ} (hR : List.Forall₂ R as bs)
    (hS : List.Forall₂ S as cs) (h : ∀ a b, ∀ c ∈ cs, R a b → S a c → T b c) :
    List.Forall₂ T bs cs := by
  induction hR generalizing cs with
  | nil =>
    obtain rfl := List.forall₂_nil_left_iff.1 hS
    exact .nil
  | cons hab _ ih =>
    obtain ⟨c, cs, hac, htail, rfl⟩ := List.forall₂_cons_left_iff.1 hS
    exact .cons (h _ _ c List.mem_cons_self hab hac)
      (ih htail fun a b c hc => h a b c (List.mem_cons_of_mem _ hc))

namespace Grammar

variable {g g' : Grammar} {R : Nat → Nat → Prop} {nt nt' n rounds size : Nat} {r : Rule}
  {add : Nat → Nat → Nat}

/-! ## Exact sums -/

/-- What the rounds find with exact sums is the size of the largest derivation. -/
theorem isGreatest_of_largest (hproductive : g.Productive nt)
    (h : g.largest (· + ·) rounds nt = some size) : IsGreatest {m | g.HasSize nt m} size := by
  obtain ⟨top, htop⟩ := bounded_of_largest h
  obtain ⟨hle, hattained⟩ := largest_spec (fun a b _ => rfl) htop h
  exact ⟨hattained hproductive, hle⟩

theorem maxSizeWith_add_eq_some_iff : g.maxSizeWith (· + ·) = some n ↔
    IsGreatest {m | g.HasSize start m} n ∨ n = 0 ∧ ¬g.Productive start := by
  rw [maxSizeWith_eq]
  split
  next hknown =>
    have hproductive := productive_iff.1 hknown
    rw [or_iff_left fun h => h.2 hproductive]
    refine ⟨isGreatest_of_largest hproductive, fun h => ?_⟩
    obtain ⟨m, hm⟩ := hproductive
    obtain ⟨r, hr, -⟩ := hasSize_iff.1 hm
    obtain ⟨size, hsize⟩ : ∃ size, g.largest (· + ·) g.rules.length start = some size :=
      exists_largest (lt_length_of_mem hr) ⟨n, fun m hm => h.2 hm⟩
    rw [hsize, (isGreatest_of_largest ⟨m, hm⟩ hsize).unique h]
  next hknown =>
    have hproductive : ¬g.Productive start := fun h => hknown (productive_iff.2 h)
    have hnone : ¬IsGreatest {m | g.HasSize start m} n := fun h => hproductive ⟨n, h.1⟩
    simp [hproductive, hnone, eq_comm]

theorem isGreatest_of_maxSizeWith (h : g.maxSizeWith (· + ·) = some n) (hn : 0 < n) :
    IsGreatest {m | g.HasSize start m} n :=
  (maxSizeWith_add_eq_some_iff.1 h).resolve_right fun h => hn.ne' h.1

/-! ## Productive rules -/

/-- Each productive rule of a nonterminal has one of each related nonterminal that has the same
weight and produces related nonterminals. -/
def Simulates (g g' : Grammar) (R : Nat → Nat → Prop) : Prop :=
  ∀ nt nt', R nt nt' → ∀ r ∈ g.rulesOf nt, (∀ c ∈ r.children, g.Productive c) →
    ∃ r' ∈ g'.rulesOf nt', r'.weight = r.weight ∧ List.Forall₂ R r.children r'.children

/-- The productive rules of two grammars correspond from the start symbols on. -/
structure Corresponds (g g' : Grammar) (R : Nat → Nat → Prop) : Prop where
  starts : R start start
  there : Simulates g g' R
  back : Simulates g' g (flip R)

/-- Related nonterminals have derivations of the same sizes. -/
theorem Simulates.hasSize (h : Simulates g g' R) (hnt : R nt nt') (hn : g.HasSize nt n) :
    g'.HasSize nt' n := by
  induction n using Nat.strong_induction_on generalizing nt nt' with
  | _ n ih =>
    obtain ⟨r, hr, sizes, hsizes, rfl⟩ := exists_usefulRule hn
    obtain ⟨hr, hproductive⟩ := mem_usefulRulesOf.1 hr
    obtain ⟨r', hr', hweight, hkids⟩ := h nt nt' hnt r hr hproductive
    have hpos := weight_pos_of_mem hr
    refine hasSize_iff.2 ⟨r', hr', sizes, ?_, by rw [hweight]⟩
    refine forall₂_transfer hkids hsizes fun c c' size hsize hc hn => ?_
    have hle : size ≤ sizes.sum := List.le_sum_of_mem hsize
    exact ih size (by omega) hc hn

theorem Corresponds.hasSize_iff (h : g.Corresponds g' R) :
    g.HasSize start n ↔ g'.HasSize start n :=
  ⟨h.there.hasSize h.starts, h.back.hasSize h.starts⟩

/-- With exact sums the search returns a positive size just if the largest derivation of the start
symbol has it, zero just if there is no derivation, and nothing just if derivations become ever
larger. Two grammars whose productive rules correspond give the same result, whatever their other
rules are and those of nonterminals to which no productive rule leads. -/
theorem maxSizeWith_add_spec (g : Grammar) :
    (∀ n, 0 < n → (g.maxSizeWith (· + ·) = some n ↔ IsGreatest {m | g.HasSize start m} n)) ∧
    (g.maxSizeWith (· + ·) = some 0 ↔ ¬∃ n, g.HasSize start n) ∧
    (g.maxSizeWith (· + ·) = none ↔ ∀ b, ∃ n, b < n ∧ g.HasSize start n) ∧
    ∀ g' R, g.Corresponds g' R → g'.maxSizeWith (· + ·) = g.maxSizeWith (· + ·) := by
  refine ⟨fun n hn => ?_, ?_, ?_, fun g' R h => Option.ext fun n => ?_⟩
  · rw [maxSizeWith_add_eq_some_iff, or_iff_left fun h => hn.ne' h.1]
  · have hpos : ¬IsGreatest {m | g.HasSize start m} 0 := fun ⟨⟨t, ht⟩, _⟩ => by
      have := ht.size_pos
      omega
    rw [maxSizeWith_add_eq_some_iff, or_iff_right hpos]
    exact and_iff_right rfl
  · have hbounded : g.maxSizeWith (· + ·) = none ↔ ¬g.Bounded start := by
      rw [← Option.not_isSome_iff_eq_none, isSome_maxSizeWith_iff]
    rw [hbounded]
    simp [Bounded, and_comm]
  · have hsizes : {m | g'.HasSize start m} = {m | g.HasSize start m} :=
      Set.ext fun m => h.hasSize_iff.symm
    have hproductive : g'.Productive start ↔ g.Productive start :=
      exists_congr fun m => h.hasSize_iff.symm
    rw [maxSizeWith_add_eq_some_iff, maxSizeWith_add_eq_some_iff, hsizes, hproductive]

/-- A literal and the negation of the other one. -/
def literalAndNegation : Grammar :=
  .ofProductions [⟨"B", .bool⟩, ⟨"C", .bool⟩]
    [[.bool true, Term.not (.id "C")], [.bool false]]

/-- The same literals and negations. `U` derives nothing and occurs in a rule, and no rule leads to
`D`, which has ever larger derivations. -/
def literalAndNegationAmongOthers : Grammar :=
  .ofProductions [⟨"B", .bool⟩, ⟨"U", .bool⟩, ⟨"C", .bool⟩, ⟨"D", .bool⟩]
    [[.bool true, .conj [.id "C", .id "U"], Term.not (.id "C")], [Term.not (.id "U")],
      [.bool false], [.bool true, Term.not (.id "D")]]

theorem maxSizeWith_add_literalAndNegation :
    literalAndNegation.Corresponds literalAndNegationAmongOthers
      (fun nt nt' => (nt, nt') ∈ [(0, 0), (1, 2)]) ∧
    literalAndNegationAmongOthers.maxSizeWith (· + ·) = literalAndNegation.maxSizeWith (· + ·) ∧
    IsGreatest {m | literalAndNegation.HasSize start m} 2 := by
  have hthere : ∀ p ∈ [(0, 0), (1, 2)], ∀ r ∈ literalAndNegation.rulesOf p.1,
      (∀ c ∈ r.children, Known literalAndNegation.productive c) →
        ∃ r' ∈ literalAndNegationAmongOthers.rulesOf p.2, r'.weight = r.weight ∧
          List.Forall₂ (fun nt nt' => (nt, nt') ∈ [(0, 0), (1, 2)]) r.children r'.children := by
    decide +kernel
  have hback : ∀ p ∈ [(0, 0), (1, 2)], ∀ r ∈ literalAndNegationAmongOthers.rulesOf p.2,
      (∀ c ∈ r.children, Known literalAndNegationAmongOthers.productive c) →
        ∃ r' ∈ literalAndNegation.rulesOf p.1, r'.weight = r.weight ∧
          List.Forall₂ (fun nt nt' => (nt', nt) ∈ [(0, 0), (1, 2)]) r.children r'.children := by
    decide +kernel
  have hcorresponds : literalAndNegation.Corresponds literalAndNegationAmongOthers
      fun nt nt' => (nt, nt') ∈ [(0, 0), (1, 2)] := by
    refine ⟨by decide, fun nt nt' h r hr hkids => ?_, fun nt nt' h r hr hkids => ?_⟩
    · exact hthere (nt, nt') h r hr fun c hc => productive_iff.2 (hkids c hc)
    · exact hback (nt', nt) h r hr fun c hc => productive_iff.2 (hkids c hc)
  refine ⟨hcorresponds, ?_, ?_⟩
  · exact (maxSizeWith_add_spec literalAndNegation).2.2.2 _ _ hcorresponds
  · exact ((maxSizeWith_add_spec literalAndNegation).1 2 (by decide)).1 (by decide +kernel)

/-! ## Sums in a register -/

/-- A sum that the search forms: the weight of a productive rule of a nonterminal that occurs, and
the sizes of the largest derivations of the first of its children. -/
inductive PartialSum (g : Grammar) : Nat → Prop
  | intro {nt : Nat} {r : Rule} {kids sizes : List Nat} (hnt : g.Occurs nt)
      (hr : r ∈ g.rulesOf nt) (hproductive : ∀ c ∈ r.children, g.Productive c)
      (hkids : kids <+: r.children)
      (hsizes : List.Forall₂ (fun c size => IsGreatest {m | g.HasSize c m} size) kids sizes) :
      PartialSum g (r.weight + sizes.sum)

/-- A nonterminal that occurs has a largest derivation if the start symbol has one. -/
theorem Occurs.exists_isGreatest (h : g.Occurs nt) (hbounded : g.Bounded Grammar.start) :
    ∃ size, IsGreatest {m | g.HasSize nt m} size := by
  obtain ⟨b, hb⟩ := hbounded
  obtain ⟨m, hm⟩ := h.productive
  obtain ⟨r, hr, -⟩ := hasSize_iff.1 hm
  have hnt : g.Bounded nt := ⟨b, fun k hk =>
    let ⟨_, hle, hsize⟩ := h.exists_hasSize hk
    hle.trans (hb _ hsize)⟩
  obtain ⟨size, hsize⟩ : ∃ size, g.largest (· + ·) g.rules.length nt = some size :=
    exists_largest (lt_length_of_mem hr) hnt
  exact ⟨size, isGreatest_of_largest h.productive hsize⟩

/-- A sum that is formed is part of a derivation of the start symbol. -/
theorem PartialSum.le {s : Nat} (h : g.PartialSum s) (hn : ∀ m, g.HasSize start m → m ≤ n) :
    s ≤ n := by
  obtain ⟨hnt, hr, hproductive, ⟨rest, hrest⟩, hsizes⟩ := h
  rename_i nt r kids sizes
  obtain ⟨sizes', hsizes'⟩ := exists_forall₂ fun c hc =>
    hproductive c (hrest ▸ List.mem_append_right kids hc)
  have hall : List.Forall₂ g.HasSize r.children (sizes ++ sizes') := by
    rw [← hrest]
    exact List.rel_append (hsizes.imp fun c size h => h.1) hsizes'
  obtain ⟨m, hle, hm⟩ := hnt.exists_hasSize (hasSize_of_children hr hall)
  have := hn m hm
  rw [List.sum_append] at hle
  omega

/-- The size of the largest derivation is a sum that is formed. -/
theorem partialSum_of_isGreatest (h : IsGreatest {m | g.HasSize start m} n) : g.PartialSum n := by
  have hstart : g.Occurs start := .start ⟨n, h.1⟩
  obtain ⟨r, hr, sizes, hsizes, hn⟩ := exists_usefulRule h.1
  obtain ⟨hr, hproductive⟩ := mem_usefulRulesOf.1 hr
  obtain ⟨greatest, hgreatest⟩ := exists_forall₂ fun c hc =>
    (Occurs.child hstart hr hproductive hc).exists_isGreatest ⟨n, fun m hm => h.2 hm⟩
  have hle : sizes.sum ≤ greatest.sum :=
    sum_le_sum_of_forall₂ (hgreatest.imp fun c size h m (hm : g.HasSize c m) => h.2 hm) hsizes
  have hge : r.weight + greatest.sum ≤ n :=
    h.2 (hasSize_of_children hr (hgreatest.imp fun c size h => h.1))
  obtain rfl : n = r.weight + greatest.sum := by omega
  exact .intro hstart hr hproductive List.prefix_rfl hgreatest

/-- Adding up is exact if it is from each partial sum to the next. -/
theorem foldl_eq_of_prefixes {first : Nat} {sizes : List Nat}
    (h : ∀ before size, before ++ [size] <+: sizes →
      add (first + before.sum) size = first + before.sum + size) :
    sizes.foldl add first = first + sizes.sum := by
  induction sizes using List.reverseRecOn with
  | nil => rfl
  | append_singleton sizes size ih =>
    have hbefore := ih fun before size' hle =>
      h before size' (hle.trans (List.prefix_append sizes [size]))
    rw [List.foldl_append, hbefore, List.foldl_cons, List.foldl_nil, h sizes size List.prefix_rfl,
      List.sum_append, List.sum_singleton, Nat.add_assoc]

/-- Where the sums that are formed are exact, the rounds find what they find with exact sums. -/
theorem largest_of_partialSums (hadd : ∀ a b, g.PartialSum (a + b) → add a b = a + b)
    (hnt : g.Occurs nt) (h : g.largest (· + ·) rounds nt = some size) :
    g.largest add rounds nt = some size := by
  induction rounds generalizing nt size with
  | zero => simp at h
  | succ rounds ih =>
    obtain ⟨hlt, values, hvalues, hsize⟩ := largest_succ_iff.1 h
    refine largest_succ_iff.2 ⟨hlt, values, forall₂_of_mem (fun r hr value _ => ?_) hvalues, hsize⟩
    rintro ⟨sizes, hsizes, rfl⟩
    obtain ⟨hr, hproductive⟩ := mem_usefulRulesOf.1 hr
    have hoccurs (c : Nat) (hc : c ∈ r.children) : g.Occurs c := .child hnt hr hproductive hc
    have hgreatest : List.Forall₂ (fun c size => IsGreatest {m | g.HasSize c m} size)
        r.children sizes :=
      forall₂_of_mem (fun c hc size _ => isGreatest_of_largest (hproductive c hc)) hsizes
    refine ⟨sizes, forall₂_of_mem (fun c hc size _ => ih (hoccurs c hc)) hsizes, ?_⟩
    have hexact : ∀ before size, before ++ [size] <+: sizes →
        add (r.weight + before.sum) size = r.weight + before.sum + size := by
      intro before size hle
      refine hadd _ _ ?_
      have hkids := List.forall₂_take (before ++ [size]).length hgreatest
      rw [← List.prefix_iff_eq_take.1 hle] at hkids
      have htake : r.children.take (before ++ [size]).length <+: r.children := List.take_prefix _ _
      have hsum := PartialSum.intro hnt hr hproductive htake hkids
      rwa [List.sum_append, List.sum_singleton, ← Nat.add_assoc] at hsum
    rw [foldl_eq_of_prefixes hexact]
    exact (foldl_eq_of_prefixes fun _ _ _ => rfl).symm

/-- Sums in a register stay below its size, if the weights do. -/
theorem foldl_addRegister_lt {weight : Nat} (hweight : weight < UInt64.size) (sizes : List Nat) :
    sizes.foldl addRegister weight < UInt64.size := by
  induction sizes generalizing weight with
  | nil => exact hweight
  | cons size sizes ih => exact ih (Nat.mod_lt _ (by decide))

theorem maxSize_lt (hweights : ∀ nt, ∀ r ∈ g.rulesOf nt, r.weight < UInt64.size)
    (h : g.maxSize = some n) : n < UInt64.size := by
  rw [maxSize, maxSizeWith_eq] at h
  split at h
  next =>
    cases hrounds : g.rules.length with
    | zero => simp [hrounds] at h
    | succ rounds =>
      rw [hrounds] at h
      obtain ⟨-, values, hvalues, rfl⟩ := largest_succ_iff.1 h
      rcases (foldl_max_spec 0 values).1 with hzero | hmem
      · rw [hzero]
        decide
      · obtain ⟨r, hr, sizes, -, hvalue⟩ := exists_mem_of_forall₂ hvalues.flip hmem
        rw [← hvalue]
        exact foldl_addRegister_lt (hweights start r (mem_usefulRulesOf.1 hr).1) sizes
  next =>
    obtain rfl := Option.some.inj h
    decide

/-- An enumeration without a bound of its own is limited by what the search finds. -/
theorem limit_new (g : Grammar) : (Enumerator.new g none).limit = g.maxSize := by
  show Option.merge min none g.maxSize = g.maxSize
  cases g.maxSize <;> rfl

/-- Let `n` be the size of the largest derivation. The search finds it if all sums that it forms
are exact, and all these sums fit into the register if and only if `n` does. Then the search in
registers finds `n`, and an enumeration is limited by it. If `n` does not fit, although the weights
of the rules do, the search finds a smaller size. -/
theorem partialSum_fits_iff (g : Grammar) (n : Nat) (h : IsGreatest {m | g.HasSize start m} n) :
    (∀ add, (∀ a b, g.PartialSum (a + b) → add a b = a + b) → g.maxSizeWith add = some n) ∧
    ((∀ s, g.PartialSum s → s < UInt64.size) ↔ n < UInt64.size) ∧
    (n < UInt64.size → g.maxSize = some n ∧ (Enumerator.new g none).limit = some n) ∧
    ((∀ nt, ∀ r ∈ g.rulesOf nt, r.weight < UInt64.size) → UInt64.size ≤ n →
      ∃ m < n, g.maxSize = some m ∧ (Enumerator.new g none).limit = some m) := by
  have hstart : g.Productive start := ⟨n, h.1⟩
  have hexact (add : Nat → Nat → Nat) (hadd : ∀ a b, g.PartialSum (a + b) → add a b = a + b) :
      g.maxSizeWith add = some n := by
    have hfound := maxSizeWith_add_eq_some_iff.2 (.inl h)
    rw [maxSizeWith_eq, if_pos (productive_iff.2 hstart)] at hfound ⊢
    exact largest_of_partialSums hadd (.start hstart) hfound
  have hfits (hn : n < UInt64.size) (s : Nat) (hs : g.PartialSum s) : s < UInt64.size :=
    (hs.le fun m hm => h.2 hm).trans_lt hn
  rw [limit_new]
  refine ⟨hexact, ⟨fun hs => hs n (partialSum_of_isGreatest h), hfits⟩, fun hn => ?_,
    fun hweights hn => ?_⟩
  · have hmax : g.maxSize = some n :=
      hexact addRegister fun a b hs => Nat.mod_eq_of_lt (hfits hn _ hs)
    exact ⟨hmax, hmax⟩
  · obtain ⟨m, hm⟩ := Option.isSome_iff_exists.1
      (isSome_maxSize_iff.2 ⟨n, fun m hm => h.2 hm⟩)
    exact ⟨m, (maxSize_lt hweights hm).trans_le hn, hm, hm⟩

end Grammar

/-! ## Towers -/

/-- So many times the nonterminal in a conjunction. -/
def repeated (n : Nat) (nt : String) : Term := .nary .and (List.replicate n (.id nt))

/-- The rules of a tower. All nonterminals produce a literal. The start symbol also produces fifteen
times the first of the names, and each name sixteen times the next. -/
def towerRules (names : List String) : List (String × Term) :=
  ("S" :: names).map (fun nt => (nt, .bool true)) ++
    (names.head?.toList.map fun a => ("S", repeated 15 a)) ++
    (names.zip names.tail).map fun (a, b) => (a, repeated 16 b)

/-- The tower over the names. -/
def tower (names : List String) : GrammarBuilder :=
  { params := []
    logic := .lia
    entries := ("S" :: names).map fun nt =>
      (⟨nt, .bool⟩, ((towerRules names).filter (·.1 = nt)).map fun rule => .term rule.2) }

def sixteenLevels : List String :=
  ["A", "B", "C", "D", "E", "F", "G", "H", "I", "J", "K", "L", "M", "N", "O", "P"]

open Grammar

/-- A tower of fifteen levels has a largest derivation of size `2 ^ 60`, which fits. -/
theorem fits_tower :
    IsGreatest {m | ((tower (sixteenLevels.take 15)).finish []).HasSize start m} (2 ^ 60) ∧
    ((tower (sixteenLevels.take 15)).finish []).maxSize = some (2 ^ 60) := by
  have h : IsGreatest {m | ((tower (sixteenLevels.take 15)).finish []).HasSize start m}
      (2 ^ 60) := by
    refine isGreatest_of_maxSizeWith ?_ (by decide)
    decide +kernel
  exact ⟨h, ((partialSum_fits_iff _ _ h).2.2.1 (by decide)).1⟩

/-- The builder accepts a tower of sixteen levels. Its largest derivation has size `2 ^ 64`, but the
search in registers finds 1: an enumeration returns the literal alone, although the conjunction of
fifteen literals is derived too. -/
theorem tower_wraps : ∃ g,
    (do
      let b ← ("S" :: sixteenLevels).foldlM (fun (b : GrammarBuilder) nt => b.declare nt .bool)
        (.new [] .lia)
      let b ← (towerRules sixteenLevels).foldlM
        (fun (b : GrammarBuilder) (nt, rule) => b.addRule nt rule) b
      b.build []) = .ok g ∧
    IsGreatest {m | g.HasSize start m} (2 ^ 64) ∧
    g.maxSize = some 1 ∧ (Enumerator.new g none).limit = some 1 ∧
    .nary .and (List.replicate 15 (.bool true)) ∈ g.language ∧
    ∀ ticks n ts e, (Enumerator.new g none).take ticks n = some (ts, e) →
      .nary .and (List.replicate 15 (.bool true)) ∉ ts := by
  have hbuilder : (("S" :: sixteenLevels).foldlM
      (fun (b : GrammarBuilder) nt => b.declare nt .bool) (.new [] .lia) >>= fun b =>
        (towerRules sixteenLevels).foldlM
          (fun (b : GrammarBuilder) (nt, rule) => b.addRule nt rule) b) =
      .ok (tower sixteenLevels) := by
    decide +kernel
  have hgreatest : IsGreatest {m | ((tower sixteenLevels).finish []).HasSize start m} (2 ^ 64) := by
    refine isGreatest_of_maxSizeWith ?_ (by decide)
    decide +kernel
  have hmax : ((tower sixteenLevels).finish []).maxSize = some 1 := by decide +kernel
  have hlimit : (Enumerator.new ((tower sixteenLevels).finish []) none).limit = some 1 := by
    rw [limit_new, hmax]
  have hmin : ((tower sixteenLevels).finish []).minSize start
      (.nary .and (List.replicate 15 (.bool true))) = some 16 := by
    rw [minSize_eq]
    decide +kernel
  refine ⟨(tower sixteenLevels).finish [], ?_, hgreatest, hmax, hlimit,
    ⟨16, (isLeast_minSize.1 hmin).1⟩, fun ticks n ts e htake hmem => ?_⟩
  · rw [← bind_assoc, hbuilder]
    rfl
  · obtain ⟨hreached, hsame, -, -⟩ := (Enumerator.reached_new _ none).take htake
    rw [List.nil_append] at hreached
    obtain ⟨s, hs, hincluded⟩ := hreached.out_spec.2.1 _ hmem
    obtain rfl : 16 = s := Option.some.inj (hmin.symm.trans hs)
    have hle := Enumerator.excludes_eq_false_iff.1 hincluded 1 (by rw [hsame, hlimit])
    omega

end InvariantSearch
