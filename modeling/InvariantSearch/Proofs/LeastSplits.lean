import InvariantSearch.Proofs.LargestDerivation
import InvariantSearch.Proofs.Listing
import Mathlib.Data.List.Lex
import Mathlib.Order.Bounds.Defs

/-!
# The least splits

The table of an enumerator says which nonterminals have derivations of which sizes. It says so
rightly after any calls and in the middle of a call (`Obtained.sound_run`). With the rows of such a
table `firstSplit` finds the least split of a size, and `nextSplit` the least one after given parts
(`Enumerator.finds_least_splits`); lists of parts are compared lexicographically. The given parts
are any positive ones, with derivations or not: the parts kept from the left are looked up again,
and the first one that is changed has to grow (`nextSplit_eq_find?`).
-/

namespace InvariantSearch

/-! ## Searches in ascending lists -/

section Least

variable {α : Type} [LinearOrder α] {l : List α}

/-- What is found is the least element, and nothing is found if there are no elements. -/
def FindsLeast (found : Option α) (S : Set α) : Prop :=
  match found with
  | some a => IsLeast S a
  | none => S = ∅

theorem findsLeast_head? (h : l.Pairwise (· < ·)) : FindsLeast l.head? {a | a ∈ l} := by
  cases l with
  | nil => simp [FindsLeast]
  | cons a l =>
    refine ⟨List.mem_cons_self, fun b hb => ?_⟩
    rcases List.mem_cons.1 hb with rfl | hb
    · exact le_refl _
    · exact (List.rel_of_pairwise_cons h hb).le

theorem FindsLeast.eq_some {found : Option α} {S : Set α} {a : α} (h : FindsLeast found S)
    (ha : IsLeast S a) : found = some a := by
  cases found with
  | none => exact absurd ha.1 (Set.eq_empty_iff_forall_notMem.1 h a)
  | some b => exact congrArg some (IsLeast.unique h ha)

/-- The first element with a property is the least one that has it. -/
theorem findsLeast_find? (h : l.Pairwise (· < ·)) (p : α → Bool) :
    FindsLeast (l.find? p) {a | a ∈ l ∧ p a = true} := by
  have hfilter := findsLeast_head? (h.filter p)
  rw [List.head?_filter] at hfilter
  simpa only [List.mem_filter] using hfilter

end Least

/-! ## Splits in order -/

section Splits

variable {inhabited : Nat → Nat → Bool} {ks ps : List Nat} {k p n : Nat}

theorem pairwise_splits (pos : ∀ k, inhabited k 0 = false) :
    (splits inhabited ks n).Pairwise (· < ·) := by
  rw [splits_eq_filter pos]
  exact pairwise_compositions.filter _

/-- The splits after some parts with a first part that is given. -/
theorem find?_map_cons (part : Nat) (rests : List (List Nat)) :
    (rests.map (part :: ·)).find? (p :: ps < ·) =
      if part < p then none
      else if part = p then (rests.find? (ps < ·)).map (p :: ·)
      else rests.head?.map (part :: ·) := by
  rw [List.find?_map]
  split
  next hlt =>
    have hnone : rests.find? ((fun parts => decide (p :: ps < parts)) ∘ (part :: ·)) = none := by
      refine List.find?_eq_none.2 fun rest _ => ?_
      simp only [Function.comp_apply, decide_eq_true_eq, List.cons_lt_cons_iff]
      omega
    rw [hnone, Option.map_none]
  next hle =>
    split
    next heq =>
      subst heq
      refine congrArg (Option.map _) (congrArg (List.find? · rests) ?_)
      funext rest
      simp
    next hne =>
      have hlt : p < part := by omega
      have hall : ((fun parts => decide (p :: ps < parts)) ∘ (part :: ·)) =
          fun _ : List Nat => true := by
        funext rest
        simp [List.cons_lt_cons_iff, hlt]
      rw [hall]
      cases rests <;> rfl

theorem range'_eq_append_cons (hp : 1 ≤ p) (left : Nat) :
    List.range' 1 (p + left) = List.range' 1 (p - 1) ++ p :: List.range' (p + 1) left := by
  obtain ⟨q, rfl⟩ := Nat.exists_eq_add_of_le hp
  rw [Nat.add_sub_cancel_left, ← List.range'_succ, List.range'_append_1, Nat.add_comm 1 q,
    Nat.add_right_comm, Nat.add_assoc]

/-- Of the splits after some parts, those with the same first part come first, and then those with a
larger one, which may go on in any way. -/
theorem find?_splits_cons {k' m : Nat} (hp : 1 ≤ p) (hlength : (k' :: ks).length ≤ m) :
    (splits inhabited (k :: k' :: ks) (p + m)).find? (p :: ps < ·) =
      ((if inhabited k p then (splits inhabited (k' :: ks) m).find? (ps < ·) else none).map
        (p :: ·)).or
      ((List.range' (p + 1) (m - (k' :: ks).length)).findSome? fun part =>
        if inhabited k part then (firstSplit inhabited (k' :: ks) (p + m - part)).map (part :: ·)
        else none) := by
  have hkept : (if inhabited k p then
        (splits inhabited (k' :: ks) (p + m - p)).map (p :: ·) else []).find? (p :: ps < ·) =
      (if inhabited k p then (splits inhabited (k' :: ks) m).find? (ps < ·) else none).map
        (p :: ·) := by
    split
    next => rw [find?_map_cons, if_neg (Nat.lt_irrefl p), if_pos rfl, Nat.add_sub_cancel_left]
    next => rfl
  have hbefore : (List.range' 1 (p - 1)).findSome? (fun part =>
      (if inhabited k part then
        (splits inhabited (k' :: ks) (p + m - part)).map (part :: ·) else []).find?
          (p :: ps < ·)) = none := by
    refine List.findSome?_eq_none_iff.2 fun part hpart => ?_
    have hlt := (List.mem_range'_1.1 hpart).2
    split
    next => rw [find?_map_cons, if_pos (by omega)]
    next => rfl
  have hafter : (List.range' (p + 1) (m - (k' :: ks).length)).findSome? (fun part =>
      (if inhabited k part then
        (splits inhabited (k' :: ks) (p + m - part)).map (part :: ·) else []).find?
          (p :: ps < ·)) =
      (List.range' (p + 1) (m - (k' :: ks).length)).findSome? fun part =>
        if inhabited k part then (firstSplit inhabited (k' :: ks) (p + m - part)).map (part :: ·)
        else none := by
    rw [← List.head?_filterMap, ← List.head?_filterMap]
    refine congrArg List.head? (List.filterMap_congr fun part hpart => ?_)
    have hlt := (List.mem_range'_1.1 hpart).1
    split
    next =>
      rw [find?_map_cons, if_neg (by omega), if_neg (by omega),
        head?_splits (List.cons_ne_nil k' ks)]
    next => rfl
  rw [splits, List.find?_flatMap, Nat.add_sub_assoc hlength, range'_eq_append_cons hp,
    List.findSome?_append, hbefore, Option.none_or, List.findSome?_cons, hkept, hafter]
  cases (if inhabited k p then (splits inhabited (k' :: ks) m).find? (ps < ·) else none) <;> rfl

/-- A single part cannot grow. -/
theorem nextSplit_singleton (k p : Nat) : nextSplit inhabited [k] [p] = none := by
  have hnil : nextSplit inhabited [] [] = none := rfl
  rw [nextSplit_cons, hnil, ite_self]
  rfl

/-- The split after some positive parts is the first one in the list that is greater. -/
theorem nextSplit_eq_find? (length : ps.length = ks.length) (positive : ∀ p ∈ ps, 1 ≤ p) :
    nextSplit inhabited ks ps = (splits inhabited ks ps.sum).find? (ps < ·) := by
  induction ks generalizing ps with
  | nil =>
    obtain rfl := List.eq_nil_of_length_eq_zero length
    rfl
  | cons k ks ih =>
    obtain ⟨p, ps, rfl⟩ := List.exists_cons_of_length_eq_add_one length
    obtain ⟨hp, hps⟩ := List.forall_mem_cons.1 positive
    have length := Nat.succ.inj length
    cases ks with
    | nil =>
      obtain rfl := List.eq_nil_of_length_eq_zero length
      rw [nextSplit_singleton, splits]
      split <;> simp
    | cons k' ks =>
      have hlength : (k' :: ks).length ≤ ps.sum :=
        length ▸ List.length_le_sum_of_one_le ps hps
      rw [nextSplit_cons, List.sum_cons, find?_splits_cons hp hlength, ih length hps]
      cases (if inhabited k p then (splits inhabited (k' :: ks) ps.sum).find? (ps < ·) else none)
      all_goals rfl

end Splits

/-! ## The table -/

namespace Grammar

variable {g : Grammar} {ks parts : List Nat} {nt n : Nat}

theorem inhabited_iff_hasSize : g.inhabited nt n = true ↔ g.HasSize nt n := by
  rw [inhabited_iff, List.ne_nil_iff_exists_cons]
  constructor
  · rintro ⟨d, ds, hds⟩
    obtain ⟨hvalid, hnt, hsize⟩ := mem_derivations.1 (hds ▸ List.mem_cons_self : d ∈ _)
    exact ⟨d.term g, d, hvalid, hnt, hsize, rfl⟩
  · rintro ⟨t, d, hvalid, hnt, hsize, -⟩
    exact List.ne_nil_iff_exists_cons.1
      (List.ne_nil_of_mem (mem_derivations.2 ⟨hvalid, hnt, hsize⟩))

/-- The parts are positive and add up to the size, and each nonterminal has a derivation of the size
of its part. -/
structure IsSplit (g : Grammar) (ks : List Nat) (n : Nat) (parts : List Nat) : Prop where
  derived : List.Forall₂ g.HasSize ks parts
  positive : ∀ part ∈ parts, 1 ≤ part
  total : parts.sum = n

theorem mem_splits_iff : parts ∈ splits g.inhabited ks n ↔ g.IsSplit ks n parts := by
  rw [mem_splits inhabited_zero]
  simp only [inhabited_iff_hasSize]
  constructor
  · rintro ⟨h, hsum⟩
    refine ⟨h, fun part hpart => ?_, hsum⟩
    obtain ⟨k, -, t, ht⟩ := exists_mem_of_forall₂ h.flip hpart
    exact ht.size_pos
  · rintro ⟨h, -, hsum⟩
    exact ⟨h, hsum⟩

theorem findsLeast_head?_splits (g : Grammar) (ks : List Nat) (n : Nat) :
    FindsLeast (splits g.inhabited ks n).head? {parts | g.IsSplit ks n parts} := by
  have hsorted : (splits g.inhabited ks n).Pairwise (· < ·) := pairwise_splits inhabited_zero
  simpa only [mem_splits_iff] using findsLeast_head? hsorted

theorem findsLeast_find?_splits (g : Grammar) (ks : List Nat) (n : Nat) (after : List Nat) :
    FindsLeast ((splits g.inhabited ks n).find? (after < ·))
      {parts | g.IsSplit ks n parts ∧ after < parts} := by
  have hsorted : (splits g.inhabited ks n).Pairwise (· < ·) := pairwise_splits inhabited_zero
  simpa only [mem_splits_iff, decide_eq_true_eq] using findsLeast_find? hsorted (after < ·)

end Grammar

namespace Enumerator

variable {g : Grammar} {e : Enumerator g} {maxSize : Option Nat}

theorem kept_run (e : Enumerator g) (ticks : Nat) : e.Kept (e.run ticks).2 := by
  induction ticks generalizing e with
  | zero => exact e.kept_refl
  | succ ticks ih => exact e.kept_tick.trans (ih e.tick.2)

/-- The table is right after any calls and in the middle of a call. -/
theorem Obtained.sound_run (h : e.Obtained g maxSize) (ticks : Nat) :
    (e.run ticks).2.table.Sound g :=
  (e.kept_run ticks).sound h.spec.1

/-- After any calls, and any number of ticks into the next call, each row of the table says which
nonterminals have derivations of its size. A search with that table, and with rows for all sizes up
to the one that is split among the holes of a rule, finds the least split. A search after given
positive parts of that size finds the least split that is greater than they are. Where there is no
such split the searches find nothing. -/
theorem finds_least_splits (h : e.Obtained g maxSize) (ticks : Nat) :
    (∀ size ∈ (e.run ticks).2.table.rows, ∀ nt,
      ((e.run ticks).2.table.inhabited nt size = true ↔ g.HasSize nt size)) ∧
    ∀ nt, ∀ r ∈ g.rulesOf nt, r.children ≠ [] → ∀ n bound, n ≤ bound →
      FindsLeast (firstSplit ((e.run ticks).2.table.cover g bound).inhabited r.children n)
        {parts | g.IsSplit r.children n parts} ∧
      ∀ after, after.length = r.children.length → (∀ part ∈ after, 1 ≤ part) → after.sum = n →
        FindsLeast (nextSplit ((e.run ticks).2.table.cover g bound).inhabited r.children after)
          {parts | g.IsSplit r.children n parts ∧ after < parts} := by
  have hsound := h.sound_run ticks
  refine ⟨fun size hsize nt => ?_, fun nt r _ hkids n bound hle => ?_⟩
  · rw [hsound.below.inhabited_eq ((hsound.keys size).1 hsize), Grammar.inhabited_iff_hasSize]
  · have hsplits : splits ((e.run ticks).2.table.cover g bound).inhabited r.children n =
        splits g.inhabited r.children n :=
      splits_congr fun k m hm => (hsound.cover bound).below.inhabited_eq
        ((hm.trans hle).trans_lt (hsound.lt_size_cover bound))
    refine ⟨?_, fun after length positive total => ?_⟩
    · rw [← head?_splits hkids, hsplits]
      exact g.findsLeast_head?_splits r.children n
    · rw [nextSplit_eq_find? length positive, total, hsplits]
      exact g.findsLeast_find?_splits r.children n after

/-- Conjunctions have odd sizes. So after the parts 2 and 4, which have no derivations, the least
split of 6 is that into 3 and 3, also for a table that was made for smaller sizes. -/
theorem finds_least_splits_conjunctions : ∃ e, (new Grammar.conjunctions none).next 1 =
      some (some (.bool true), e) ∧
    nextSplit ((e.run 2).2.table.cover Grammar.conjunctions 6).inhabited [0, 0] [2, 4] =
      some [3, 3] := by
  have hrules : Grammar.conjunctions.rulesOf Grammar.start = [⟨.bool true, [], 1⟩,
      ⟨.nary .and [.id "B", .id "B"], [0, 0], 1⟩] := rfl
  have hnext := next_new none hrules rfl rfl (by decide) 0
  have hfound : (splits Grammar.conjunctions.inhabited [0, 0] 6).find? ([2, 4] < ·) =
      some [3, 3] := by decide +kernel
  have hleast := Grammar.conjunctions.findsLeast_find?_splits [0, 0] 6 [2, 4]
  rw [hfound] at hleast
  have hr : ⟨.nary .and [.id "B", .id "B"], [0, 0], 1⟩ ∈
      Grammar.conjunctions.rulesOf Grammar.start := by simp [hrules]
  have hspec := finds_least_splits (.next .new hnext) 2
  have hsearch := (hspec.2 Grammar.start _ hr (by decide) 6 6 (Nat.le_refl 6)).2 [2, 4] rfl
    (by decide) rfl
  exact ⟨_, hnext, hsearch.eq_some hleast⟩

end Enumerator

end InvariantSearch
