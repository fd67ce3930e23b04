import InvariantSearch.Enumeration.Derivation
import Mathlib.Algebra.Ring.Nat
import Mathlib.Data.List.Forall2

/-!
# Walking through lists

A list is walked by a function that sends each element to the one after it (`Follows`). Walks are
put together as the lists are (`follows_append`, `follows_map`, `follows_flatMap`).

The splits of a size are such a list: `firstSplit` is its first element and `nextSplit` walks it
(`head?_splits`, `follows_nextSplit`).
-/

namespace InvariantSearch

/-! ## Walks -/

/-- The function sends each element of the list to the one after it, and the last one to `last`. -/
def Follows {α : Type} (next : α → Option α) : List α → Option α → Prop
  | [], _ => True
  | a :: l, last => next a = l.head?.or last ∧ Follows next l last

section Follows

variable {α β : Type} {next : α → Option α} {next' : β → Option β}

theorem follows_append {l m : List α} {last : Option α} :
    Follows next (l ++ m) last ↔ Follows next l (m.head?.or last) ∧ Follows next m last := by
  induction l with
  | nil => simp [Follows]
  | cons a l ih =>
    rw [List.cons_append, Follows, Follows, ih, List.head?_append, Option.or_assoc, and_assoc]

/-- What follows an element of the list is the element after it. -/
theorem Follows.next_eq {l m : List α} {a : α} (h : Follows next (l ++ a :: m) none) :
    next a = m.head? := by
  obtain ⟨-, h, -⟩ := follows_append.1 h
  rw [h, Option.or_none]

/-- What follows an element of the list is in the list. -/
theorem Follows.mem_of_next {l : List α} {a b : α} (h : Follows next l none) (ha : a ∈ l)
    (hb : next a = some b) : b ∈ l := by
  obtain ⟨l, m, rfl⟩ := List.append_of_mem ha
  rw [h.next_eq] at hb
  exact List.mem_append_right l (List.mem_cons_of_mem a (List.mem_of_head? hb))

/-- A walk through a list is one through its image. -/
theorem follows_map {f : α → β} {l : List α} {last : Option β} (h : Follows next l none)
    (hf : ∀ a ∈ l, next' (f a) = ((next a).map f).or last) : Follows next' (l.map f) last := by
  induction l with
  | nil => trivial
  | cons a l ih =>
    obtain ⟨ha, hl⟩ := h
    refine ⟨?_, ih hl fun b hb => hf b (List.mem_cons_of_mem a hb)⟩
    rw [hf a List.mem_cons_self, ha, Option.or_none, List.head?_map]

/-- The first element of lists put together that are not empty. -/
theorem head?_flatMap_of_ne_nil {f : α → List β} {l : List α} (h : ∀ a ∈ l, f a ≠ []) :
    (l.flatMap f).head? = l.head?.bind fun a => (f a).head? := by
  cases l with
  | nil => rfl
  | cons a l =>
    obtain ⟨b, hb⟩ := List.ne_nil_iff_exists_cons.1 (h a List.mem_cons_self)
    obtain ⟨bs, hb⟩ := hb
    simp [hb]

/-- Walks through lists that are not empty are put together where the next list begins. -/
theorem follows_flatMap {f : α → List β} {l : List α} {last : Option β} (h : Follows next l none)
    (ne : ∀ a ∈ l, f a ≠ [])
    (hf : ∀ a ∈ l, Follows next' (f a) (((next a).bind fun b => (f b).head?).or last)) :
    Follows next' (l.flatMap f) last := by
  induction l with
  | nil => trivial
  | cons a l ih =>
    obtain ⟨ha, hl⟩ := h
    have ne' := fun b hb => ne b (List.mem_cons_of_mem a hb)
    rw [List.flatMap_cons, follows_append]
    refine ⟨?_, ih hl ne' fun b hb => hf b (List.mem_cons_of_mem a hb)⟩
    have hhead := hf a List.mem_cons_self
    rw [ha, Option.or_none, ← head?_flatMap_of_ne_nil ne'] at hhead
    exact hhead

end Follows

/-! ## Choices from lists -/

/-- One element of each list, in all ways, where the choice from the last list varies fastest. -/
def product {α : Type} : List (List α) → List (List α)
  | [] => [[]]
  | l :: ls => l.flatMap fun a => (product ls).map (a :: ·)

section Product

variable {α : Type} {ls : List (List α)}

theorem mem_product {as : List α} : as ∈ product ls ↔ List.Forall₂ (· ∈ ·) as ls := by
  induction ls generalizing as with
  | nil => simp [product]
  | cons l ls ih =>
    simp only [product, List.mem_flatMap, List.mem_map, List.forall₂_cons_right_iff, ih]
    constructor
    · rintro ⟨a, ha, as, has, rfl⟩
      exact ⟨a, as, ha, has, rfl⟩
    · rintro ⟨a, as, ha, has, rfl⟩
      exact ⟨a, ha, as, has, rfl⟩

theorem product_ne_nil (h : ∀ l ∈ ls, l ≠ []) : product ls ≠ [] := by
  induction ls with
  | nil => simp [product]
  | cons l ls ih =>
    obtain ⟨a, as, rfl⟩ := List.exists_cons_of_ne_nil (h l List.mem_cons_self)
    have := ih fun m hm => h m (List.mem_cons_of_mem _ hm)
    simp [product, this]

/-- The first choice is the first element of each list. -/
theorem head?_product : (product ls).head? = ls.mapM List.head? := by
  induction ls with
  | nil => rfl
  | cons l ls ih =>
    cases l with
    | nil => simp [product]
    | cons a l =>
      rw [product, List.flatMap_cons, List.head?_append, List.head?_map, ih, List.mapM_cons]
      cases hls : ls.mapM List.head? with
      | some as => rfl
      | none =>
        rw [hls, List.head?_eq_none_iff] at ih
        simp [ih]

end Product

/-! ## Splits -/

/-- The splits of a size into parts for which there are derivations, in lexicographic order. -/
def splits (inhabited : Nat → Nat → Bool) : List Nat → Nat → List (List Nat)
  | [], n => if n = 0 then [[]] else []
  | [k], n => if inhabited k n then [[n]] else []
  | k :: k' :: ks, n => (List.range' 1 (n - (k' :: ks).length)).flatMap fun part =>
    if inhabited k part then (splits inhabited (k' :: ks) (n - part)).map (part :: ·) else []

section Splits

variable {inhabited inhabited' : Nat → Nat → Bool} {ks : List Nat} {n : Nat}

theorem splits_congr (h : ∀ k m, m ≤ n → inhabited k m = inhabited' k m) :
    splits inhabited ks n = splits inhabited' ks n := by
  induction ks generalizing n with
  | nil => rfl
  | cons k ks ih =>
    cases ks with
    | nil => rw [splits, splits, h k n (Nat.le_refl n)]
    | cons k' ks =>
      rw [splits, splits]
      refine List.flatMap_congr fun part hpart => ?_
      have hle : part ≤ n := by
        have := List.mem_range'_1.1 hpart
        omega
      rw [h k part hle, ih fun k m hm => h k m (by omega)]

theorem mem_splits_nil {ps : List Nat} : ps ∈ splits inhabited [] n ↔ ps = [] ∧ n = 0 := by
  rw [splits]
  split <;> simp [*]

theorem mem_splits_singleton {k : Nat} {ps : List Nat} :
    ps ∈ splits inhabited [k] n ↔ ps = [n] ∧ inhabited k n = true := by
  rw [splits]
  split <;> simp [*]

/-- The first part leaves at least one for each of the others. -/
theorem mem_splits_cons {k k' : Nat} {ps : List Nat} :
    ps ∈ splits inhabited (k :: k' :: ks) n ↔ ∃ part rest, ps = part :: rest ∧
      inhabited k part = true ∧ 1 ≤ part ∧ part < 1 + (n - (k' :: ks).length) ∧
      rest ∈ splits inhabited (k' :: ks) (n - part) := by
  rw [splits, List.mem_flatMap]
  constructor
  · rintro ⟨part, hpart, h⟩
    obtain ⟨hpos, hlt⟩ := List.mem_range'_1.1 hpart
    split at h
    next hk =>
      obtain ⟨rest, hrest, rfl⟩ := List.mem_map.1 h
      exact ⟨part, rest, rfl, hk, hpos, hlt, hrest⟩
    next => simp at h
  · rintro ⟨part, rest, rfl, hk, hpos, hlt, hrest⟩
    refine ⟨part, List.mem_range'_1.2 ⟨hpos, hlt⟩, ?_⟩
    rw [if_pos hk]
    exact List.mem_map_of_mem hrest

theorem sum_of_mem_splits {ps : List Nat} (h : ps ∈ splits inhabited ks n) : ps.sum = n := by
  induction ks generalizing n ps with
  | nil =>
    obtain ⟨rfl, rfl⟩ := mem_splits_nil.1 h
    exact List.sum_nil
  | cons k ks ih =>
    cases ks with
    | nil =>
      obtain ⟨rfl, -⟩ := mem_splits_singleton.1 h
      exact List.sum_singleton
    | cons k' ks =>
      obtain ⟨part, rest, rfl, -, -, hlt, hrest⟩ := mem_splits_cons.1 h
      rw [List.sum_cons, ih hrest]
      simp only [List.length_cons] at hlt
      omega

/-- Parts that have derivations are positive, so there are no more of them than what they add up
to. -/
theorem length_le_sum (pos : ∀ k, inhabited k 0 = false) {ps : List Nat}
    (h : List.Forall₂ (fun k p => inhabited k p = true) ks ps) : ks.length ≤ ps.sum := by
  induction h with
  | nil => exact Nat.le_refl 0
  | @cons k p ks ps hp _ ih =>
    have hp : p ≠ 0 := by
      rintro rfl
      rw [pos k] at hp
      cases hp
    rw [List.length_cons, List.sum_cons]
    omega

/-- The parts have derivations and add up to the size. -/
theorem mem_splits (pos : ∀ k, inhabited k 0 = false) {ps : List Nat} :
    ps ∈ splits inhabited ks n ↔
      List.Forall₂ (fun k p => inhabited k p = true) ks ps ∧ ps.sum = n := by
  induction ks generalizing n ps with
  | nil =>
    rw [mem_splits_nil, List.forall₂_nil_left_iff]
    refine and_congr_right fun h => ?_
    rw [h, List.sum_nil, eq_comm]
  | cons k ks ih =>
    cases ks with
    | nil =>
      rw [mem_splits_singleton]
      constructor
      · rintro ⟨rfl, hk⟩
        exact ⟨.cons hk .nil, List.sum_singleton⟩
      · rintro ⟨h, rfl⟩
        obtain ⟨p, ps, hp, hps, rfl⟩ := List.forall₂_cons_left_iff.1 h
        obtain rfl := List.forall₂_nil_left_iff.1 hps
        rw [List.sum_singleton]
        exact ⟨rfl, hp⟩
    | cons k' ks =>
      constructor
      · intro h
        refine ⟨?_, sum_of_mem_splits h⟩
        obtain ⟨part, rest, rfl, hk, -, -, hrest⟩ := mem_splits_cons.1 h
        exact .cons hk (ih.1 hrest).1
      · rintro ⟨h, rfl⟩
        obtain ⟨p, ps, hp, hps, rfl⟩ := List.forall₂_cons_left_iff.1 h
        have hlength := length_le_sum pos hps
        have hpos : 1 ≤ p := by simpa using length_le_sum pos (.cons hp .nil)
        rw [List.sum_cons]
        exact mem_splits_cons.2 ⟨p, ps, rfl, hp, hpos, by omega, ih.2 ⟨hps, by omega⟩⟩

/-- `firstSplit` is the first split. -/
theorem head?_splits (hks : ks ≠ []) :
    (splits inhabited ks n).head? = firstSplit inhabited ks n := by
  induction ks generalizing n with
  | nil => exact absurd rfl hks
  | cons k ks ih =>
    cases ks with
    | nil =>
      rw [splits, firstSplit]
      split <;> rfl
    | cons k' ks =>
      rw [splits, firstSplit, List.head?_flatMap]
      congr 1
      funext part
      split
      next => rw [List.head?_map, ih (List.cons_ne_nil k' ks)]
      next => rfl

/-- After a split comes the next one with the same first part, or else the first one with a larger
first part. -/
theorem nextSplit_cons (k p : Nat) (ks ps : List Nat) :
    nextSplit inhabited (k :: ks) (p :: ps) =
      match if inhabited k p then nextSplit inhabited ks ps else none with
      | some ps' => some (p :: ps')
      | none =>
        (List.range' (p + 1) (ps.sum - ks.length)).findSome? fun part =>
          if inhabited k part then (firstSplit inhabited ks (p + ps.sum - part)).map (part :: ·)
          else none :=
  rfl

/-- If `nextSplit` walks the splits over the other nonterminals, it walks those over all of them
from any first part on. -/
theorem follows_nextSplit_from {k k' : Nat}
    (hrest : ∀ n, Follows (nextSplit inhabited (k' :: ks)) (splits inhabited (k' :: ks) n) none)
    {left part : Nat} (h : part + left = 1 + (n - (k' :: ks).length)) :
    Follows (nextSplit inhabited (k :: k' :: ks))
      ((List.range' part left).flatMap fun part =>
        if inhabited k part then (splits inhabited (k' :: ks) (n - part)).map (part :: ·) else [])
      none := by
  induction left generalizing part with
  | zero => trivial
  | succ left ih =>
    rw [List.range'_succ, List.flatMap_cons, follows_append]
    refine ⟨?_, ih (by omega)⟩
    split
    next hk =>
      refine follows_map (hrest _) fun ps hps => ?_
      have hsum := sum_of_mem_splits hps
      have hleft : ps.sum - (k' :: ks).length = left := by
        simp only [List.length_cons] at h ⊢
        omega
      have htotal : part + ps.sum = n := by omega
      rw [nextSplit_cons, if_pos hk, Option.or_none, List.head?_flatMap, hleft, htotal]
      cases nextSplit inhabited (k' :: ks) ps with
      | some ps' => rfl
      | none =>
        rw [Option.map_none, Option.none_or]
        refine congrArg (List.findSome? · (List.range' (part + 1) left)) ?_
        funext p
        split
        next => rw [List.head?_map, head?_splits (List.cons_ne_nil k' ks)]
        next => rfl
    next => trivial

/-- `nextSplit` walks the splits. -/
theorem follows_nextSplit : Follows (nextSplit inhabited ks) (splits inhabited ks n) none := by
  induction ks generalizing n with
  | nil =>
    rw [splits]
    split
    next => exact ⟨rfl, trivial⟩
    next => trivial
  | cons k ks ih =>
    cases ks with
    | nil =>
      rw [splits]
      split
      next hk => exact ⟨by rw [nextSplit_cons, if_pos hk]; rfl, trivial⟩
      next => trivial
    | cons k' ks =>
      rw [splits]
      exact follows_nextSplit_from (fun n => ih) (by omega)

end Splits

end InvariantSearch
