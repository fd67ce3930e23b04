import InvariantSearch.Grammar.Size
import InvariantSearch.Proofs.Derivations
import InvariantSearch.Proofs.Rounds

/-!
# The largest derivation of a grammar

`Grammar.HasSize` says that a nonterminal has a derivation of a size, whatever the term. The search
for productive nonterminals finds those that have a derivation (`productive_iff`).

The sizes of largest derivations can be found in rounds (`largest`). As many rounds as there are
nonterminals find one if and only if derivations are bounded (`bounded_of_largest`,
`exists_largest`), and what is found is the size of the largest one as long as sizes are added up
exactly (`largest_spec`).
-/

namespace InvariantSearch

namespace Grammar

variable {g : Grammar} {nt c n : Nat} {r : Rule}

/-! ## Sizes of derivations -/

/-- The nonterminal has a derivation of the size. -/
def HasSize (g : Grammar) (nt n : Nat) : Prop := ∃ t, g.Derives nt n t

/-- The nonterminal has a derivation. -/
def Productive (g : Grammar) (nt : Nat) : Prop := ∃ n, g.HasSize nt n

/-- Derivations for all holes of a rule make a derivation. -/
theorem hasSize_of_children (hr : r ∈ g.rulesOf nt) {sizes : List Nat}
    (h : List.Forall₂ g.HasSize r.children sizes) : g.HasSize nt (r.weight + sizes.sum) := by
  have hterms : ∃ ts : List Term, ts.length = r.children.length ∧
      List.Forall₂ (fun part size => g.Derives part.1 size part.2) (r.children.zip ts) sizes := by
    generalize r.children = kids at h
    induction h with
    | nil => exact ⟨[], rfl, .nil⟩
    | cons h _ ih =>
      obtain ⟨t, ht⟩ := h
      obtain ⟨ts, length, hts⟩ := ih
      exact ⟨t :: ts, by simp [length], .cons ht hts⟩
  obtain ⟨ts, length, hts⟩ := hterms
  exact ⟨g.instantiate r ts,
    derives_iff.2 ⟨r, hr, r.children.zip ts, matches_instantiate hr length, sizes, hts, rfl⟩⟩

/-- A derivation begins with a rule and has derivations for its holes. -/
theorem hasSize_iff : g.HasSize nt n ↔
    ∃ r ∈ g.rulesOf nt, ∃ sizes, List.Forall₂ g.HasSize r.children sizes ∧
      n = r.weight + sizes.sum := by
  constructor
  · rintro ⟨t, ht⟩
    obtain ⟨r, hr, parts, hm, sizes, hsizes, rfl⟩ := derives_iff.1 ht
    refine ⟨r, hr, sizes, ?_, rfl⟩
    rw [← map_fst_of_matches hr hm, List.forall₂_map_left_iff]
    exact hsizes.imp fun part size h => ⟨part.2, h⟩
  · rintro ⟨r, hr, sizes, hsizes, rfl⟩
    exact hasSize_of_children hr hsizes

/-- A rule whose holes can be filled extends each derivation for a hole. -/
theorem exists_hasSize_of_child (hr : r ∈ g.rulesOf nt) (hkids : ∀ c ∈ r.children, g.Productive c)
    (hc : c ∈ r.children) (hn : g.HasSize c n) : ∃ m, n < m ∧ g.HasSize nt m := by
  have hsizes : ∃ sizes, List.Forall₂ g.HasSize r.children sizes ∧ n ≤ sizes.sum := by
    generalize r.children = kids at hkids hc
    induction kids with
    | nil => simp at hc
    | cons k kids ih =>
      have hkids' := fun c hc => hkids c (List.mem_cons_of_mem k hc)
      rcases List.mem_cons.1 hc with rfl | hc
      · obtain ⟨sizes, hsizes⟩ := exists_forall₂ hkids'
        exact ⟨n :: sizes, .cons hn hsizes, by simp⟩
      · obtain ⟨m, hm⟩ := hkids k List.mem_cons_self
        obtain ⟨sizes, hsizes, hle⟩ := ih hkids' hc
        refine ⟨m :: sizes, .cons hm hsizes, ?_⟩
        rw [List.sum_cons]
        omega
  obtain ⟨sizes, hsizes, hle⟩ := hsizes
  have hw := weight_pos_of_mem hr
  exact ⟨r.weight + sizes.sum, by omega, hasSize_of_children hr hsizes⟩

/-! ## Productive nonterminals -/

/-- What is known to be productive. -/
def Known (known : Array Bool) (nt : Nat) : Prop := known[nt]?.getD false = true

instance (known : Array Bool) (nt : Nat) : Decidable (Known known nt) :=
  inferInstanceAs (Decidable (_ = true))

theorem known_productiveOnce {known : Array Bool} : Known (g.productiveOnce known) nt ↔
    ∃ r ∈ g.rulesOf nt, ∀ c ∈ r.children, Known known c := by
  rw [Known, productiveOnce, List.getElem?_toArray, List.getElem?_map, rulesOf]
  cases g.rules[nt]? with
  | none => simp
  | some rules => simp [Known]

theorem productive_of_known (rounds : Nat)
    (h : Known (Nat.repeat g.productiveOnce rounds (.replicate g.rules.length false)) nt) :
    g.Productive nt := by
  induction rounds generalizing nt with
  | zero =>
    rw [Known, Nat.repeat, Array.getElem?_replicate] at h
    split at h <;> simp at h
  | succ rounds ih =>
    obtain ⟨r, hr, hkids⟩ := known_productiveOnce.1 h
    obtain ⟨sizes, hsizes⟩ := exists_forall₂ fun c hc => ih (hkids c hc)
    exact ⟨_, hasSize_of_children hr hsizes⟩

/-- The nonterminals that are found to be productive are those that have a derivation. -/
theorem productive_iff : Known g.productive nt ↔ g.Productive nt := by
  rw [productive, settle_eq_repeat]
  refine ⟨productive_of_known _, fun ⟨n, hn⟩ => ?_⟩
  refine known_after_rounds (P := g.HasSize)
    (K := fun k nt => Known (Nat.repeat g.productiveOnce k (.replicate g.rules.length false)) nt)
    (fun nt n h => ?_) (fun k nt n h _ hknown => ?_) hn
  · obtain ⟨r, hr, -⟩ := hasSize_iff.1 h
    exact lt_length_of_mem hr
  · obtain ⟨r, hr, sizes, hsizes, rfl⟩ := hasSize_iff.1 h
    have hw := weight_pos_of_mem hr
    refine known_productiveOnce.2 ⟨r, hr, fun c hc => ?_⟩
    obtain ⟨size, hsize, hcs⟩ := exists_mem_of_forall₂ hsizes hc
    have hle : size ≤ sizes.sum := List.le_sum_of_mem hsize
    exact hknown c size (by omega) hcs

/-- The useful rules of a nonterminal. -/
def usefulRulesOf (g : Grammar) (nt : Nat) : List Rule := (g.usefulRules[nt]?).getD []

theorem mem_usefulRulesOf : r ∈ g.usefulRulesOf nt ↔
    r ∈ g.rulesOf nt ∧ ∀ c ∈ r.children, g.Productive c := by
  have hkids : (r.children.all fun c => g.productive[c]?.getD false) = true ↔
      ∀ c ∈ r.children, g.Productive c := by
    rw [List.all_eq_true]
    exact forall₂_congr fun c _ => productive_iff
  rw [usefulRulesOf, usefulRules, List.getElem?_map, rulesOf, ← hkids]
  cases g.rules[nt]? with
  | none => simp
  | some rules => simp

/-- Every derivation is by a useful rule. -/
theorem exists_usefulRule (h : g.HasSize nt n) :
    ∃ r ∈ g.usefulRulesOf nt, ∃ sizes, List.Forall₂ g.HasSize r.children sizes ∧
      n = r.weight + sizes.sum := by
  obtain ⟨r, hr, sizes, hsizes, hn⟩ := hasSize_iff.1 h
  refine ⟨r, mem_usefulRulesOf.2 ⟨hr, fun c hc => ?_⟩, sizes, hsizes, hn⟩
  obtain ⟨size, -, hsize⟩ := exists_mem_of_forall₂ hsizes hc
  exact ⟨size, hsize⟩

/-! ## The largest derivation in rounds -/

/-- One round: the largest derivation of a nonterminal is known once those of all children of its
useful rules are. -/
def maxSizesOnce (rules : List (List Rule)) (add : Nat → Nat → Nat) (known : Array (Option Nat)) :
    Array (Option Nat) :=
  (rules.map fun rules =>
    (rules.mapM fun (r : Rule) =>
      (r.children.mapM fun c => known[c]?.join).map fun sizes => sizes.foldl add r.weight).map
      fun sizes => sizes.foldl max 0).toArray

/-- The size found for the nonterminal after some rounds. -/
def largest (g : Grammar) (add : Nat → Nat → Nat) (rounds nt : Nat) : Option Nat :=
  (Nat.repeat (maxSizesOnce g.usefulRules add) rounds
    (.replicate g.usefulRules.length none))[nt]?.join

variable {add : Nat → Nat → Nat} {rounds size : Nat}

@[simp] theorem largest_zero : g.largest add 0 nt = none := by
  rw [largest, Nat.repeat, Array.getElem?_replicate]
  split <;> rfl

/-- A size is found once those of all children of the useful rules are. -/
theorem largest_succ_iff : g.largest add (rounds + 1) nt = some size ↔
    nt < g.rules.length ∧ ∃ values,
      List.Forall₂ (fun (r : Rule) value => ∃ sizes,
          List.Forall₂ (fun c size => g.largest add rounds c = some size) r.children sizes ∧
            sizes.foldl add r.weight = value) (g.usefulRulesOf nt) values ∧
        values.foldl max 0 = size := by
  have hrules : g.usefulRules[nt]? = if nt < g.rules.length then some (g.usefulRulesOf nt)
      else none := by
    rw [usefulRulesOf, usefulRules, List.getElem?_map]
    split
    next hlt => simp [hlt]
    next hlt => simp [List.getElem?_eq_none (Nat.le_of_not_lt hlt)]
  rw [largest, Nat.repeat, maxSizesOnce, List.getElem?_toArray, List.getElem?_map, hrules]
  by_cases hlt : nt < g.rules.length
  · simp only [hlt, if_true, Option.map_some, Option.join_some, Option.map_eq_some_iff,
      mapM_eq_some_iff, true_and]
    rfl
  · simp [hlt]

/-- What is bounded for each element of a list is bounded for all of them. -/
theorem exists_bound {α : Type} {S : α → Nat → Prop} {as : List α}
    (h : ∀ a ∈ as, ∃ b, ∀ n, S a n → n ≤ b) : ∃ b, ∀ a ∈ as, ∀ n, S a n → n ≤ b := by
  induction as with
  | nil => exact ⟨0, by simp⟩
  | cons a as ih =>
    obtain ⟨b, hb⟩ := h a List.mem_cons_self
    obtain ⟨b', hb'⟩ := ih fun a ha => h a (List.mem_cons_of_mem _ ha)
    refine ⟨max b b', fun a' ha' n hn => ?_⟩
    rcases List.mem_cons.1 ha' with rfl | ha'
    · exact (hb n hn).trans (Nat.le_max_left _ _)
    · exact (hb' a' ha' n hn).trans (Nat.le_max_right _ _)

theorem sum_le_of_forall₂ {R : Nat → Nat → Prop} {kids sizes : List Nat} {b : Nat}
    (hb : ∀ c ∈ kids, ∀ n, R c n → n ≤ b) (h : List.Forall₂ R kids sizes) :
    sizes.sum ≤ kids.length * b := by
  induction h with
  | nil => exact Nat.zero_le _
  | cons h _ ih =>
    have hhead := hb _ List.mem_cons_self _ h
    have htail := ih fun c hc => hb c (List.mem_cons_of_mem _ hc)
    rw [List.sum_cons, List.length_cons, Nat.succ_mul]
    omega

/-- The derivations of a nonterminal have bounded sizes. -/
def Bounded (g : Grammar) (nt : Nat) : Prop := ∃ b, ∀ n, g.HasSize nt n → n ≤ b

/-- A size is found only where derivations are bounded. -/
theorem bounded_of_largest (h : g.largest add rounds nt = some size) : g.Bounded nt := by
  induction rounds generalizing nt size with
  | zero => simp at h
  | succ rounds ih =>
    obtain ⟨-, values, hvalues, -⟩ := largest_succ_iff.1 h
    have hrule : ∀ r ∈ g.usefulRulesOf nt, ∃ b, ∀ n,
        (∃ sizes, List.Forall₂ g.HasSize r.children sizes ∧ n = r.weight + sizes.sum) → n ≤ b := by
      intro r hr
      obtain ⟨_, -, sizes, hsizes, -⟩ := exists_mem_of_forall₂ hvalues hr
      obtain ⟨b, hb⟩ := exists_bound fun c hc =>
        let ⟨_, _, hlargest⟩ := exists_mem_of_forall₂ hsizes hc
        ih hlargest
      refine ⟨r.weight + r.children.length * b, ?_⟩
      rintro _ ⟨sizes, hsizes, rfl⟩
      exact Nat.add_le_add_left (sum_le_of_forall₂ hb hsizes) _
    obtain ⟨b, hb⟩ := exists_bound hrule
    refine ⟨b, fun n hn => ?_⟩
    obtain ⟨r, hr, hsizes⟩ := exists_usefulRule hn
    exact hb r hr n hsizes

/-- Where derivations are bounded, as many rounds as there are nonterminals find a size. -/
theorem exists_largest (hnt : nt < g.rules.length) (h : g.Bounded nt) :
    ∃ size, g.largest add g.rules.length nt = some size := by
  obtain ⟨b, hb⟩ := h
  refine known_after_rounds (P := fun nt b => nt < g.rules.length ∧ ∀ n, g.HasSize nt n → n ≤ b)
    (K := fun k nt => ∃ size, g.largest add k nt = some size)
    (fun nt n h => h.1) (fun k nt b h _ hknown => ?_) ⟨hnt, hb⟩
  have hrule : ∀ r ∈ g.usefulRulesOf nt, ∃ value sizes,
      List.Forall₂ (fun c size => g.largest add k c = some size) r.children sizes ∧
        sizes.foldl add r.weight = value := by
    intro r hr
    obtain ⟨hr, hkids⟩ := mem_usefulRulesOf.1 hr
    have hchild : ∀ c ∈ r.children, ∃ size, g.largest add k c = some size := by
      intro c hc
      -- The bound for a child is smaller, since the rule adds to each derivation for the child.
      have hlt : ∀ n, g.HasSize c n → n < b := fun n hn =>
        let ⟨m, hm, hsize⟩ := exists_hasSize_of_child hr hkids hc hn
        hm.trans_le (h.2 m hsize)
      obtain ⟨n, hn⟩ := hkids c hc
      have hpos := hlt n hn
      refine hknown c (b - 1) (by omega) ⟨?_, fun n hn => Nat.le_sub_one_of_lt (hlt n hn)⟩
      obtain ⟨r, hr, -⟩ := hasSize_iff.1 hn
      exact lt_length_of_mem hr
    obtain ⟨sizes, hsizes⟩ := exists_forall₂ hchild
    exact ⟨_, sizes, hsizes, rfl⟩
  obtain ⟨values, hvalues⟩ := exists_forall₂ hrule
  exact ⟨_, largest_succ_iff.2 ⟨h.1, values, hvalues, rfl⟩⟩

theorem foldl_add_eq {top : Nat} (hadd : ∀ a b, a + b ≤ top → add a b = a + b) (first : Nat)
    (sizes : List Nat) (hle : first + sizes.sum ≤ top) :
    sizes.foldl add first = first + sizes.sum := by
  induction sizes generalizing first with
  | nil => rfl
  | cons size sizes ih =>
    rw [List.sum_cons] at hle ⊢
    rw [List.foldl_cons, hadd first size (by omega), ih (first + size) (by omega), Nat.add_assoc]

theorem foldl_max_spec (first : Nat) (values : List Nat) :
    (values.foldl max first = first ∨ values.foldl max first ∈ values) ∧
      first ≤ values.foldl max first ∧ ∀ value ∈ values, value ≤ values.foldl max first := by
  induction values generalizing first with
  | nil => simp
  | cons value values ih =>
    obtain ⟨heq, hfirst, hle⟩ := ih (max first value)
    rw [List.foldl_cons]
    refine ⟨?_, by omega, List.forall_mem_cons.2 ⟨by omega, hle⟩⟩
    rcases heq with heq | hmem
    · rw [heq, List.mem_cons]
      omega
    · exact .inr (List.mem_cons_of_mem _ hmem)

theorem sum_le_sum_of_forall₂ {R : Nat → Nat → Prop} {kids sizes bounds : List Nat}
    (hb : List.Forall₂ (fun c bound => ∀ n, R c n → n ≤ bound) kids bounds)
    (h : List.Forall₂ R kids sizes) : sizes.sum ≤ bounds.sum := by
  induction hb generalizing sizes with
  | nil =>
    obtain rfl := List.forall₂_nil_left_iff.1 h
    exact Nat.le_refl _
  | cons hhead _ ih =>
    obtain ⟨size, sizes, hsize, hsizes, rfl⟩ := List.forall₂_cons_left_iff.1 h
    exact Nat.add_le_add (hhead size hsize) (ih hsizes)

/-- A size that is found is that of the largest derivation, as long as sizes do not exceed what can
be added up exactly. -/
theorem largest_spec {top : Nat} (hadd : ∀ a b, a + b ≤ top → add a b = a + b)
    (htop : ∀ n, g.HasSize nt n → n ≤ top) (h : g.largest add rounds nt = some size) :
    (∀ n, g.HasSize nt n → n ≤ size) ∧ (g.Productive nt → g.HasSize nt size) := by
  induction rounds generalizing nt size with
  | zero => simp at h
  | succ rounds ih =>
    obtain ⟨-, values, hvalues, rfl⟩ := largest_succ_iff.1 h
    have hrules : List.Forall₂ (fun r value => g.HasSize nt value ∧
        ∀ sizes, List.Forall₂ g.HasSize r.children sizes → r.weight + sizes.sum ≤ value)
        (g.usefulRulesOf nt) values := by
      refine forall₂_of_mem (fun r hr value _ => ?_) hvalues
      rintro ⟨sizes, hsizes, rfl⟩
      obtain ⟨hr, hkids⟩ := mem_usefulRulesOf.1 hr
      have hchildren : List.Forall₂ (fun c size =>
          (∀ n, g.HasSize c n → n ≤ size) ∧ g.HasSize c size) r.children sizes := by
        refine forall₂_of_mem (fun c hc size _ hsize => ?_) hsizes
        have htop : ∀ n, g.HasSize c n → n ≤ top := fun n hn =>
          let ⟨m, hm, hsize⟩ := exists_hasSize_of_child hr hkids hc hn
          (Nat.le_of_lt hm).trans (htop m hsize)
        obtain ⟨hle, hattained⟩ := ih htop hsize
        exact ⟨hle, hattained (hkids c hc)⟩
      have hsize := hasSize_of_children hr (hchildren.imp fun c size h => h.2)
      rw [foldl_add_eq hadd r.weight sizes (htop _ hsize)]
      refine ⟨hsize, fun sizes' hsizes' => Nat.add_le_add_left ?_ _⟩
      exact sum_le_sum_of_forall₂ (hchildren.imp fun c size h => h.1) hsizes'
    obtain ⟨heq, -, hle⟩ := foldl_max_spec 0 values
    refine ⟨fun n hn => ?_, fun ⟨n, hn⟩ => ?_⟩
    · obtain ⟨r, hr, sizes, hsizes, rfl⟩ := exists_usefulRule hn
      obtain ⟨value, hmem, -, hvalue⟩ := exists_mem_of_forall₂ hrules hr
      exact (hvalue sizes hsizes).trans (hle value hmem)
    · obtain ⟨r, hr, -⟩ := exists_usefulRule hn
      obtain ⟨value, hmem, hvalue, -⟩ := exists_mem_of_forall₂ hrules hr
      rcases heq with hzero | hmem'
      · have hle := hle value hmem
        rw [hzero] at hle ⊢
        rwa [Nat.le_zero.1 hle] at hvalue
      · obtain ⟨r, -, hvalue, -⟩ := exists_mem_of_forall₂ hrules.flip hmem'
        exact hvalue

end Grammar

end InvariantSearch
