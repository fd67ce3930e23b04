import Mathlib.Data.Finset.Card
import Mathlib.Data.Nat.Find

/-!
# Facts that are found in rounds

Some facts about nonterminals are found in rounds, each from those of the round before it. A fact
about a nonterminal comes with sizes, and rests on facts about nonterminals that have smaller sizes.
So the round in which a fact is found is bounded by the number of nonterminals that have smaller
sizes, and as many rounds as there are nonterminals find all facts (`known_after_rounds`).
-/

namespace InvariantSearch

variable {count : Nat} {P : Nat → Nat → Prop}

open Classical in
/-- The nonterminals that have a size below `n`. -/
noncomputable def smaller (count : Nat) (P : Nat → Nat → Prop) (n : Nat) : Finset Nat :=
  (Finset.range count).filter fun nt => ∃ m < n, P nt m

theorem mem_smaller {n nt : Nat} : nt ∈ smaller count P n ↔ nt < count ∧ ∃ m < n, P nt m := by
  simp [smaller]

/-- A nonterminal does not count for its own smallest size, but for every larger size. -/
theorem card_smaller_lt {c m n : Nat} (hc : c < count) (hP : P c m) (hleast : ∀ k < m, ¬P c k)
    (hlt : m < n) : (smaller count P m).card < (smaller count P n).card := by
  refine Finset.card_lt_card ((Finset.ssubset_iff_of_subset fun u hu => ?_).2
    ⟨c, mem_smaller.2 ⟨hc, m, hlt, hP⟩, fun hmem => ?_⟩)
  · obtain ⟨hu, k, hk, hP⟩ := mem_smaller.1 hu
    exact mem_smaller.2 ⟨hu, k, hk.trans hlt, hP⟩
  · obtain ⟨-, k, hk, hP⟩ := mem_smaller.1 hmem
    exact hleast k hk hP

theorem card_smaller_lt_count {c m : Nat} (hc : c < count) (hleast : ∀ k < m, ¬P c k) :
    (smaller count P m).card < count := by
  have hlt : (smaller count P m).card < (Finset.range count).card := by
    refine Finset.card_lt_card ((Finset.ssubset_iff_of_subset fun u hu => ?_).2
      ⟨c, Finset.mem_range.2 hc, fun hmem => ?_⟩)
    · exact Finset.mem_range.2 (mem_smaller.1 hu).1
    · obtain ⟨-, k, hk, hP⟩ := mem_smaller.1 hmem
      exact hleast k hk hP
  rwa [Finset.card_range] at hlt

/-- Let `K k` hold of the nonterminals that are known after `k` rounds. If a nonterminal of some
smallest size is known one round after all that have smaller sizes, then as many rounds as there are
nonterminals make all of them known. -/
theorem known_after_rounds {K : Nat → Nat → Prop} (bound : ∀ nt n, P nt n → nt < count)
    (step : ∀ k nt n, P nt n → (∀ m < n, ¬P nt m) → (∀ c m, m < n → P c m → K k c) → K (k + 1) nt)
    {nt n : Nat} (h : P nt n) : K count nt := by
  classical
  have hrank (n : Nat) : ∀ nt k, P nt n → (∀ m < n, ¬P nt m) → (smaller count P n).card < k →
      K k nt := by
    induction n using Nat.strong_induction_on with
    | _ n ih =>
      intro nt k hP hleast hk
      obtain ⟨k, rfl⟩ : ∃ j, k = j + 1 := ⟨k - 1, by omega⟩
      refine step k nt n hP hleast fun c m hm hc => ?_
      have hex : ∃ m, P c m := ⟨m, hc⟩
      have hlt : Nat.find hex < n := (Nat.find_min' hex hc).trans_lt hm
      have hcard := card_smaller_lt (bound c m hc) (Nat.find_spec hex) (fun j => Nat.find_min hex)
        hlt
      exact ih _ hlt c k (Nat.find_spec hex) (fun j => Nat.find_min hex) (by omega)
  have hex : ∃ n, P nt n := ⟨n, h⟩
  exact hrank _ nt count (Nat.find_spec hex) (fun j => Nat.find_min hex)
    (card_smaller_lt_count (bound nt n h) fun j => Nat.find_min hex)

end InvariantSearch
