import InvariantSearch.Proofs.Derivations
import InvariantSearch.Proofs.Splits

/-!
# The order of derivations

`Grammar.derivations` lists the valid derivations of a nonterminal of one size in their order
(`mem_derivations`). A table with rows for all smaller sizes holds the first derivation of each list
(`Table.Sound`), and then `Deriv.next?` walks the list (`follows_next?`).
-/

namespace InvariantSearch

namespace Grammar

/-! ## The list of derivations -/

/-- The derivations by a rule, where `smaller` lists the derivations of smaller sizes. -/
def derivationsBy (smaller : Nat → Nat → List Deriv) (nt rule : Nat) (r : Rule) (size : Nat) :
    List Deriv :=
  if size < r.weight then []
  else
    (splits (fun k n => !(smaller k n).isEmpty) r.children (size - r.weight)).flatMap fun parts =>
      (product (List.zipWith smaller r.children parts)).map (.node nt rule size ·)

/-- The derivations of a nonterminal of a size of at most `depth`. -/
def derivationsTo (g : Grammar) : (depth : Nat) → (nt size : Nat) → List Deriv
  | 0, _, _ => []
  | depth + 1, nt, size => (g.rulesOf nt).zipIdx.flatMap fun (r, rule) =>
    derivationsBy (g.derivationsTo depth) nt rule r size

/-- The derivations of a nonterminal of a size, in their order. -/
def derivations (g : Grammar) (nt size : Nat) : List Deriv := g.derivationsTo size nt size

section

variable {g : Grammar} {nt rule size : Nat} {r : Rule} {smaller smaller' : Nat → Nat → List Deriv}

theorem zipWith_congr_of_mem {α β γ : Type} {f f' : α → β → γ} {as : List α} {bs : List β}
    (h : ∀ a, ∀ b ∈ bs, f a b = f' a b) : List.zipWith f as bs = List.zipWith f' as bs := by
  induction as generalizing bs with
  | nil => rfl
  | cons a as ih =>
    cases bs with
    | nil => rfl
    | cons b bs =>
      rw [List.zipWith_cons_cons, List.zipWith_cons_cons, h a b List.mem_cons_self,
        ih fun a b hb => h a b (List.mem_cons_of_mem _ hb)]

/-- A rule leaves a smaller size for its holes. -/
theorem derivationsBy_congr (hr : r ∈ g.rulesOf nt)
    (h : ∀ k n, n < size → smaller k n = smaller' k n) :
    derivationsBy smaller nt rule r size = derivationsBy smaller' nt rule r size := by
  have hw := weight_pos_of_mem hr
  unfold derivationsBy
  split
  next => rfl
  next hle =>
    rw [splits_congr fun k n hn => by rw [h k n (by omega)]]
    refine List.flatMap_congr fun parts hparts => ?_
    have hsum := sum_of_mem_splits hparts
    rw [zipWith_congr_of_mem fun k p hp => h k p ?_]
    have hle : p ≤ parts.sum := List.le_sum_of_mem hp
    omega

theorem derivationsTo_zero (depth : Nat) : g.derivationsTo depth nt 0 = [] := by
  cases depth with
  | zero => rfl
  | succ depth =>
    refine List.flatMap_eq_nil_iff.2 fun (r, rule) hr => ?_
    have hw : 0 < r.weight := weight_pos_of_mem (List.fst_mem_of_mem_zipIdx hr)
    exact if_pos hw

/-- The list does not depend on the depth to which it is computed. -/
theorem derivationsTo_eq {depth depth' : Nat} (h : size ≤ depth) (h' : size ≤ depth') :
    g.derivationsTo depth nt size = g.derivationsTo depth' nt size := by
  induction depth generalizing depth' nt size with
  | zero =>
    obtain rfl := Nat.le_zero.1 h
    rw [derivationsTo_zero, derivationsTo_zero]
  | succ depth ih =>
    cases depth' with
    | zero =>
      obtain rfl := Nat.le_zero.1 h'
      rw [derivationsTo_zero, derivationsTo_zero]
    | succ depth' =>
      refine List.flatMap_congr fun (r, rule) hr => ?_
      exact derivationsBy_congr (List.fst_mem_of_mem_zipIdx hr) fun k n hn =>
        ih (by omega) (by omega)

/-- A derivation is by one of the rules, with smaller derivations in its holes. -/
theorem derivations_eq : g.derivations nt size =
    (g.rulesOf nt).zipIdx.flatMap fun (r, rule) => derivationsBy g.derivations nt rule r size := by
  cases size with
  | zero =>
    refine Eq.symm (List.flatMap_eq_nil_iff.2 fun (r, rule) hr => ?_)
    have hw : 0 < r.weight := weight_pos_of_mem (List.fst_mem_of_mem_zipIdx hr)
    exact if_pos hw
  | succ size =>
    refine List.flatMap_congr fun (r, rule) hr => ?_
    exact derivationsBy_congr (List.fst_mem_of_mem_zipIdx hr) fun k n hn =>
      derivationsTo_eq (by omega) (Nat.le_refl n)

@[simp] theorem derivations_zero : g.derivations nt 0 = [] :=
  rfl

/-- There is a derivation of the size. -/
def inhabited (g : Grammar) (nt size : Nat) : Bool := !(g.derivations nt size).isEmpty

theorem inhabited_iff : g.inhabited nt size = true ↔ g.derivations nt size ≠ [] := by
  simp [inhabited]

theorem inhabited_zero (nt : Nat) : g.inhabited nt 0 = false :=
  rfl

/-- Choices from lists of valid derivations are valid derivations. -/
theorem valid_of_mem_product {ks ps : List Nat} {ds : List Deriv} (length : ks.length = ps.length)
    (h : ∀ k, ∀ p ∈ ps, ∀ d ∈ smaller k p, d.Valid g ∧ d.nt = k ∧ d.size = p)
    (hds : List.Forall₂ (· ∈ ·) ds (List.zipWith smaller ks ps)) :
    (∀ d ∈ ds, d.Valid g) ∧ ds.map Deriv.nt = ks ∧ ds.map Deriv.size = ps := by
  induction ks generalizing ps ds with
  | nil =>
    obtain rfl := List.length_eq_zero_iff.1 length.symm
    obtain rfl := List.forall₂_nil_right_iff.1 hds
    simp
  | cons k ks ih =>
    cases ps with
    | nil => simp at length
    | cons p ps =>
      obtain ⟨d, ds, hd, hrest, rfl⟩ := List.forall₂_cons_right_iff.1 hds
      obtain ⟨hvalid, hnt, hsize⟩ := h k p List.mem_cons_self d hd
      obtain ⟨hvalids, hnts, hsizes⟩ := ih (Nat.succ.inj length)
        (fun k p hp => h k p (List.mem_cons_of_mem _ hp)) hrest
      exact ⟨List.forall_mem_cons.2 ⟨hvalid, hvalids⟩, by simp [hnt, hnts], by simp [hsize, hsizes]⟩

/-- The list has the valid derivations. -/
theorem mem_derivations {d : Deriv} :
    d ∈ g.derivations nt size ↔ d.Valid g ∧ d.nt = nt ∧ d.size = size := by
  induction size using Nat.strong_induction_on generalizing nt d with
  | _ size ih =>
    rw [derivations_eq, List.mem_flatMap]
    constructor
    · rintro ⟨⟨r, rule⟩, hr, hd⟩
      have hrule : (g.rulesOf nt)[rule]? = some r := List.mem_zipIdx_iff_getElem?.1 hr
      have hw : 1 ≤ r.weight := weight_pos_of_mem (List.mem_of_getElem? hrule)
      change d ∈ derivationsBy g.derivations nt rule r size at hd
      unfold derivationsBy at hd
      split at hd
      next => simp at hd
      next hle =>
        obtain ⟨parts, hparts, hd⟩ := List.mem_flatMap.1 hd
        obtain ⟨ds, hds, rfl⟩ := List.mem_map.1 hd
        have hsum := sum_of_mem_splits hparts
        have length := ((mem_splits inhabited_zero).1 hparts).1.length_eq
        obtain ⟨hvalid, hnts, hsizes⟩ := valid_of_mem_product length
          (fun k p hp d hd => (ih p (by have := List.le_sum_of_mem hp; omega)).1 hd)
          (mem_product.1 hds)
        refine ⟨.node hrule hnts ?_ hvalid, rfl, rfl⟩
        rw [hsizes]
        omega
    · rintro ⟨hd, rfl, rfl⟩
      obtain ⟨hrule, hkids, hsize, hvalid⟩ := id hd
      rename_i nt rule size ds r
      have hmem : ∀ d ∈ ds, d ∈ g.derivations d.nt d.size := fun c hc =>
        (ih c.size (hd.size_lt hc)).2 ⟨hvalid c hc, rfl, rfl⟩
      refine ⟨(r, rule), List.mem_zipIdx_iff_getElem?.2 hrule, ?_⟩
      show Deriv.node nt rule size ds ∈ derivationsBy g.derivations nt rule r size
      rw [derivationsBy, if_neg (by omega), ← hkids]
      refine List.mem_flatMap.2
        ⟨ds.map Deriv.size, (mem_splits inhabited_zero).2 ⟨?_, by omega⟩, ?_⟩
      · rw [List.forall₂_map_left_iff, List.forall₂_map_right_iff, List.forall₂_same]
        exact fun c hc => inhabited_iff.2 (List.ne_nil_of_mem (hmem c hc))
      · refine List.mem_map_of_mem (mem_product.2 ?_)
        rw [List.zipWith_map, List.zipWith_self, List.forall₂_map_right_iff, List.forall₂_same]
        exact hmem

theorem derivationsBy_eq (hle : r.weight ≤ size) : derivationsBy g.derivations nt rule r size =
    (splits g.inhabited r.children (size - r.weight)).flatMap fun parts =>
      (product (List.zipWith g.derivations r.children parts)).map (.node nt rule size ·) :=
  if_neg (Nat.not_lt.2 hle)

/-- The parts of a split are smaller than what a rule leaves its holes of. -/
theorem lt_of_mem_split (hr : r ∈ g.rulesOf nt) (hle : r.weight ≤ size)
    {inhabited : Nat → Nat → Bool} {parts : List Nat}
    (hparts : parts ∈ splits inhabited r.children (size - r.weight)) {p : Nat}
    (hp : p ∈ parts) : p < size := by
  have hw := weight_pos_of_mem hr
  have hsum := sum_of_mem_splits hparts
  have hp : p ≤ parts.sum := List.le_sum_of_mem hp
  omega

/-- There are derivations for every split. -/
theorem product_ne_nil_of_mem {ks parts : List Nat} {n : Nat}
    (hparts : parts ∈ splits g.inhabited ks n) :
    product (List.zipWith g.derivations ks parts) ≠ [] := by
  refine product_ne_nil fun l hl => ?_
  have h := ((mem_splits inhabited_zero).1 hparts).1
  clear hparts
  induction h with
  | nil => simp at hl
  | cons hp _ ih =>
    rcases List.mem_cons.1 hl with rfl | hl
    · exact inhabited_iff.1 hp
    · exact ih hl

end

end Grammar

/-! ## The table of first derivations -/

namespace Table

variable {g : Grammar} {T : Table} {nt rule size : Nat} {r : Rule}

/-- The table holds the first derivations of all sizes below `bound`. -/
def Below (g : Grammar) (T : Table) (bound : Nat) : Prop :=
  ∀ size < bound, ∀ nt, T.first nt size = (g.derivations nt size).head?

theorem Below.mono {m n : Nat} (h : T.Below g n) (hmn : m ≤ n) : T.Below g m :=
  fun size hsize => h size (hsize.trans_le hmn)

theorem Below.inhabited_eq {bound : Nat} (h : T.Below g bound) (hsize : size < bound) :
    T.inhabited nt size = g.inhabited nt size := by
  rw [inhabited, h size hsize nt, Grammar.inhabited]
  cases g.derivations nt size <;> rfl

theorem mapM_zip_eq {α : Type} {first : Nat → Nat → Option α} {all : Nat → Nat → List α}
    {ks parts : List Nat} (h : ∀ k, ∀ p ∈ parts, first k p = (all k p).head?) :
    ((ks.zip parts).mapM fun (k, p) => first k p) =
      (List.zipWith all ks parts).mapM List.head? := by
  induction ks generalizing parts with
  | nil => rfl
  | cons k ks ih =>
    cases parts with
    | nil => rfl
    | cons p parts =>
      have ih := ih fun k p hp => h k p (List.mem_cons_of_mem _ hp)
      rw [List.zip_cons_cons, List.zipWith_cons_cons, List.mapM_cons, List.mapM_cons, ih]
      simp only [h k p List.mem_cons_self]

/-- `build` makes the first derivation of a split. -/
theorem Below.build_eq (h : T.Below g size) {ks parts : List Nat} (hparts : ∀ p ∈ parts, p < size) :
    T.build nt rule size ks parts =
      ((product (List.zipWith g.derivations ks parts)).map (.node nt rule size ·)).head? := by
  rw [List.head?_map, head?_product, build, mapM_zip_eq fun k p hp => h p (hparts p hp) k]

/-- The table tells the splits for which there are derivations. -/
theorem Below.splits_eq (h : T.Below g size) (hr : r ∈ g.rulesOf nt) (hle : r.weight ≤ size) :
    splits T.inhabited r.children (size - r.weight) =
      splits g.inhabited r.children (size - r.weight) := by
  have hw := Grammar.weight_pos_of_mem hr
  exact splits_congr fun k m hm => h.inhabited_eq (by omega)

/-- `firstBy` finds the first derivation by a rule. -/
theorem Below.firstBy_eq (h : T.Below g size) (hr : r ∈ g.rulesOf nt) :
    T.firstBy nt rule r size = (Grammar.derivationsBy g.derivations nt rule r size).head? := by
  unfold firstBy
  by_cases hlt : size < r.weight
  · have hne : size ≠ r.weight := Nat.ne_of_lt hlt
    have hlt' : size < r.weight + r.children.length := by omega
    rw [if_neg hne, if_pos hlt', ite_self, Grammar.derivationsBy, if_pos hlt]
    rfl
  · by_cases hkids : r.children = []
    · by_cases heq : size = r.weight
      · simp [Grammar.derivationsBy, hkids, heq, splits, product]
      · have hsub : size - r.weight ≠ 0 := by omega
        simp [Grammar.derivationsBy, hkids, heq, hsub, splits]
    · rw [if_neg (by simpa using hkids)]
      by_cases hlen : size < r.weight + r.children.length
      · have hnil : splits g.inhabited r.children (size - r.weight) = [] := by
          refine List.eq_nil_iff_forall_not_mem.2 fun parts hparts => ?_
          obtain ⟨hall, hsum⟩ := (mem_splits Grammar.inhabited_zero).1 hparts
          have := length_le_sum Grammar.inhabited_zero hall
          omega
        rw [if_pos hlen, Grammar.derivationsBy_eq (Nat.le_of_not_lt hlt), hnil]
        rfl
      · rw [if_neg hlen, ← head?_splits hkids, h.splits_eq hr (Nat.le_of_not_lt hlt),
          Grammar.derivationsBy_eq (Nat.le_of_not_lt hlt),
          head?_flatMap_of_ne_nil fun parts hp => by simpa using Grammar.product_ne_nil_of_mem hp]
        refine Option.bind_congr fun parts hparts => h.build_eq fun p hp => ?_
        exact Grammar.lt_of_mem_split hr (Nat.le_of_not_lt hlt) (List.mem_of_head? hparts) hp

/-- `firstFrom` finds the first derivation by one of the rules. -/
theorem Below.firstFrom_eq (h : T.Below g size) {rules : List Rule}
    (hrules : ∀ r ∈ rules, r ∈ g.rulesOf nt) : T.firstFrom nt size rule rules =
      ((rules.zipIdx rule).flatMap fun (r, rule) =>
        Grammar.derivationsBy g.derivations nt rule r size).head? := by
  induction rules generalizing rule with
  | nil => rfl
  | cons r rules ih =>
    rw [firstFrom, List.zipIdx_cons, List.flatMap_cons, List.head?_append,
      h.firstBy_eq (hrules r List.mem_cons_self),
      ih fun r hr => hrules r (List.mem_cons_of_mem _ hr)]
    cases (Grammar.derivationsBy g.derivations nt rule r size).head? <;> rfl

/-- The first derivation of a nonterminal is that by the first rule that has one. -/
theorem Below.firstFrom_rulesOf (h : T.Below g size) :
    T.firstFrom nt size 0 (g.rulesOf nt) = (g.derivations nt size).head? := by
  rw [h.firstFrom_eq fun r hr => hr, Grammar.derivations_eq]

/-- The table has rows for the sizes up to some size, and they hold the first derivations. -/
structure Sound (g : Grammar) (T : Table) : Prop where
  keys : ∀ size, size ∈ T.rows ↔ size < T.rows.size
  below : T.Below g T.rows.size

theorem sound_empty : Sound g .empty :=
  ⟨by simp [empty], fun size hsize => by simp [empty] at hsize⟩

theorem Sound.size_grow (h : T.Sound g) : (T.grow g).rows.size = T.rows.size + 1 := by
  have hnot : T.rows.size ∉ T.rows := fun hmem => Nat.lt_irrefl _ ((h.keys _).1 hmem)
  rw [grow, Std.TreeMap.size_insert, if_neg (by simpa using hnot)]

/-- The row that is added holds the first derivations of its size. -/
theorem Sound.first_grow (h : T.Sound g) :
    (T.grow g).first nt T.rows.size = (g.derivations nt T.rows.size).head? := by
  rw [first, grow, Std.TreeMap.getElem?_insert_self, Option.bind_some, ← h.below.firstFrom_rulesOf,
    List.getElem?_toArray, List.getElem?_map, List.getElem?_zipIdx, Grammar.rulesOf]
  cases g.rules[nt]? with
  | none => rfl
  | some rules => simp [Thunk.get]

theorem first_grow_of_ne (hne : size ≠ T.rows.size) :
    (T.grow g).first nt size = T.first nt size := by
  rw [first, grow, Std.TreeMap.getElem?_insert, if_neg (by simpa using Ne.symm hne)]
  rfl

/-- A new row keeps the table right. -/
theorem Sound.grow (h : T.Sound g) : (T.grow g).Sound g := by
  refine ⟨fun size => ?_, fun size hsize nt => ?_⟩
  · rw [h.size_grow, Table.grow, Std.TreeMap.mem_insert, h.keys]
    simp only [Std.LawfulEqCmp.compare_eq_iff_eq]
    omega
  · rw [h.size_grow] at hsize
    by_cases heq : size = T.rows.size
    · subst heq
      exact h.first_grow
    · rw [first_grow_of_ne heq]
      exact h.below size (by omega) nt

theorem Sound.repeat_grow (h : T.Sound g) (n : Nat) :
    (Nat.repeat (Table.grow g) n T).Sound g ∧
      (Nat.repeat (Table.grow g) n T).rows.size = T.rows.size + n := by
  induction n with
  | zero => exact ⟨h, rfl⟩
  | succ n ih =>
    refine ⟨ih.1.grow, ?_⟩
    rw [Nat.repeat, ih.1.size_grow, ih.2]
    rfl

theorem Sound.cover (h : T.Sound g) (size : Nat) : (T.cover g size).Sound g :=
  (h.repeat_grow _).1

/-- The table has rows up to the size that it is to cover. -/
theorem Sound.lt_size_cover (h : T.Sound g) (size : Nat) : size < (T.cover g size).rows.size := by
  rw [Table.cover, (h.repeat_grow _).2]
  omega

end Table

/-! ## The next derivation -/

section

open Deriv

variable {g : Grammar} {T : Table} {nt size : Nat}

theorem mapM_eq_of_forall₂ {α β : Type} {first : α → Option β} {head : List α → Option β}
    {as : List α} {ls : List (List α)} (h : List.Forall₂ (· ∈ ·) as ls)
    (hfirst : ∀ l ∈ ls, ∀ a ∈ l, first a = head l) : as.mapM first = ls.mapM head := by
  induction h with
  | nil => rfl
  | @cons a l as ls ha _ ih =>
    rw [List.mapM_cons, List.mapM_cons, hfirst l List.mem_cons_self a ha,
      ih fun l hl => hfirst l (List.mem_cons_of_mem _ hl)]

/-- `nextAll?` walks the choices from lists that `next?` walks. -/
theorem follows_nextAll? {ls : List (List Deriv)} (hnext : ∀ l ∈ ls, Follows (next? g T) l none)
    (hfirst : ∀ l ∈ ls, ∀ d ∈ l, T.first d.nt d.size = l.head?) :
    Follows (nextAll? g T) (product ls) none := by
  induction ls with
  | nil => exact ⟨by simp [nextAll?], trivial⟩
  | cons l ls ih =>
    have hfirst' := fun m hm => hfirst m (List.mem_cons_of_mem _ hm)
    have ih := ih (fun m hm => hnext m (List.mem_cons_of_mem _ hm)) hfirst'
    by_cases ne : product ls = []
    · have hnil : product (l :: ls) = [] :=
        List.flatMap_eq_nil_iff.2 fun d _ => by rw [ne, List.map_nil]
      rw [hnil]
      trivial
    · refine follows_flatMap (hnext l List.mem_cons_self) (by simp [ne]) fun d hd => ?_
      refine follows_map ih fun ds hds => ?_
      have hheads : (ds.mapM fun c => T.first c.nt c.size) = (product ls).head? := by
        rw [head?_product, mapM_eq_of_forall₂ (mem_product.1 hds) hfirst']
      rw [nextAll?, hheads]
      cases nextAll? g T ds with
      | some ds' => rfl
      | none =>
        cases next? g T d with
        | none => rfl
        | some d' => simp

theorem exists_of_mem_zipWith {α β γ : Type} {f : α → β → γ} {as : List α} {bs : List β} {c : γ}
    (h : c ∈ List.zipWith f as bs) : ∃ a, ∃ b ∈ bs, c = f a b := by
  induction as generalizing bs with
  | nil => simp at h
  | cons a as ih =>
    cases bs with
    | nil => simp at h
    | cons b bs =>
      rcases List.mem_cons.1 h with rfl | h
      · exact ⟨a, b, List.mem_cons_self, rfl⟩
      · obtain ⟨a, b, hb, rfl⟩ := ih h
        exact ⟨a, b, List.mem_cons_of_mem _ hb, rfl⟩

/-- `nextAll?` walks the choices of derivations for the parts of a split. -/
theorem follows_nextAll?_parts (h : T.Below g size)
    (ih : ∀ n < size, ∀ k, Follows (next? g T) (g.derivations k n) none) {ks parts : List Nat}
    (hlt : ∀ p ∈ parts, p < size) :
    Follows (nextAll? g T) (product (List.zipWith g.derivations ks parts)) none := by
  refine follows_nextAll? (fun l hl => ?_) fun l hl d hd => ?_
  · obtain ⟨k, p, hp, rfl⟩ := exists_of_mem_zipWith hl
    exact ih p (hlt p hp) k
  · obtain ⟨k, p, hp, rfl⟩ := exists_of_mem_zipWith hl
    obtain ⟨-, rfl, rfl⟩ := Grammar.mem_derivations.1 hd
    exact h d.size (hlt _ hp) d.nt

/-- `next?` goes on by a rule, then by the rules after it. -/
theorem follows_derivationsBy (h : T.Below g size)
    (ih : ∀ n < size, ∀ k, Follows (next? g T) (g.derivations k n) none) {rule : Nat} {r : Rule}
    (hrule : (g.rulesOf nt)[rule]? = some r) :
    Follows (next? g T) (Grammar.derivationsBy g.derivations nt rule r size)
      (T.firstFrom nt size (rule + 1) ((g.rulesOf nt).drop (rule + 1))) := by
  by_cases hlt : size < r.weight
  · rw [Grammar.derivationsBy, if_pos hlt]
    trivial
  · have hr := List.mem_of_getElem? hrule
    have hle := Nat.le_of_not_lt hlt
    have hwalk : Follows (nextSplit T.inhabited r.children)
        (splits g.inhabited r.children (size - r.weight)) none := by
      rw [← h.splits_eq hr hle]
      exact follows_nextSplit
    rw [Grammar.derivationsBy_eq hle]
    refine follows_flatMap hwalk (fun parts hp => ?_) fun parts hp => ?_
    · simpa using Grammar.product_ne_nil_of_mem hp
    · have hlt : ∀ p ∈ parts, p < size := fun p => Grammar.lt_of_mem_split hr hle hp
      refine follows_map (follows_nextAll?_parts h ih hlt) fun ds hds => ?_
      have hsizes : ds.map Deriv.size = parts := by
        have length := ((mem_splits Grammar.inhabited_zero).1 hp).1.length_eq
        exact (Grammar.valid_of_mem_product length
          (fun k p _ d hd => Grammar.mem_derivations.1 hd) (mem_product.1 hds)).2.2
      have hsplit : ((nextSplit T.inhabited r.children parts).bind
            (T.build nt rule size r.children ·)) =
          (nextSplit T.inhabited r.children parts).bind fun parts =>
            ((product (List.zipWith g.derivations r.children parts)).map
              (.node nt rule size ·)).head? := by
        refine Option.bind_congr fun parts' hparts' => h.build_eq fun p hp' => ?_
        exact Grammar.lt_of_mem_split hr hle (hwalk.mem_of_next hp hparts') hp'
      rw [next?]
      cases nextAll? g T ds with
      | some ds' => rfl
      | none =>
        rw [Option.map_none, Option.none_or, ← hsplit]
        simp only [hrule, Option.bind_some, hsizes]
        cases (nextSplit T.inhabited r.children parts).bind (T.build nt rule size r.children ·) <;>
          rfl

/-- `next?` walks the derivations of a nonterminal of one size. -/
theorem follows_next? (h : T.Below g size) :
    Follows (next? g T) (g.derivations nt size) none := by
  induction size using Nat.strong_induction_on generalizing nt with
  | _ size ih =>
    have ih : ∀ n < size, ∀ k, Follows (next? g T) (g.derivations k n) none :=
      fun n hn k => ih n hn (h.mono (Nat.le_of_lt hn))
    -- The walk by the rules from any rule on.
    have hfrom (rules : List Rule) (rule : Nat) (hdrop : (g.rulesOf nt).drop rule = rules) :
        Follows (next? g T) ((rules.zipIdx rule).flatMap fun (r, rule) =>
          Grammar.derivationsBy g.derivations nt rule r size) none := by
      induction rules generalizing rule with
      | nil => trivial
      | cons r rules ihr =>
        have hrule : (g.rulesOf nt)[rule]? = some r := by
          rw [← List.head?_drop, hdrop]
          rfl
        have hrest : (g.rulesOf nt).drop (rule + 1) = rules := by
          rw [← List.tail_drop, hdrop]
          rfl
        have hmem : ∀ r ∈ rules, r ∈ g.rulesOf nt := fun r hr =>
          List.mem_of_mem_drop (hrest ▸ hr)
        rw [List.zipIdx_cons, List.flatMap_cons, follows_append, Option.or_none,
          ← h.firstFrom_eq hmem]
        refine ⟨?_, ihr (rule + 1) hrest⟩
        have hby := follows_derivationsBy h ih hrule
        rwa [hrest] at hby
    rw [Grammar.derivations_eq]
    exact hfrom _ 0 rfl

/-- The derivation after a derivation of the list is the next one. -/
theorem next?_eq (h : T.Below g size) {ds ds' : List Deriv} {d : Deriv}
    (hds : g.derivations nt size = ds ++ d :: ds') : d.next? g T = ds'.head? := by
  have hwalk : Follows (next? g T) (g.derivations nt size) none := follows_next? h
  rw [hds] at hwalk
  exact hwalk.next_eq

end

end InvariantSearch
