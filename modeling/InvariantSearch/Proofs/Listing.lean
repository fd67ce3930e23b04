import InvariantSearch.Proofs.Resumption

/-!
# Derivations listed by plain recursion

`Grammar.listing` lists the derivations of a nonterminal of one size by plain recursion: for each of
its rules, for each way to write what the rule's weight leaves as a sum of positive parts
(`compositions`), all choices of derivations for the parts. It does not ask which parts have
derivations, and it begins every list anew.

`Deriv.next?` does ask, and goes on from one derivation alone. Still it walks the same list from the
first derivation to the last, so it visits every derivation of the size once
(`Grammar.walks_listing`). The rows that the table has from before do not matter.
-/

namespace InvariantSearch

/-! ## Walks step by step -/

section Walk

variable {α : Type} {next : α → Option α} {l : List α}

/-- Some steps from the first element lead to the element of that number, or beyond the last one. -/
theorem Follows.iterate_eq (h : Follows next l none) (i : Nat) :
    (fun a => a.bind next)^[i] l.head? = l[i]? := by
  induction l generalizing i with
  | nil => exact Function.iterate_fixed rfl i
  | cons a l ih =>
    obtain ⟨ha, hl⟩ := h
    cases i with
    | zero => rfl
    | succ i =>
      rw [Function.iterate_succ_apply, List.head?_cons, Option.bind_some, ha, Option.or_none,
        ih hl, List.getElem?_cons_succ]

/-- A walk visits no element twice, since it would not end. -/
theorem Follows.nodup (h : Follows next l none) : l.Nodup := by
  rw [List.nodup_iff_getElem?_ne_getElem?]
  intro i j hij hj heq
  -- As many steps as lead from the later place beyond the end do so from the earlier one.
  have hsteps : l[l.length - j + i]? = l[l.length - j + j]? := by
    rw [← h.iterate_eq, ← h.iterate_eq, Function.iterate_add_apply, Function.iterate_add_apply,
      h.iterate_eq i, h.iterate_eq j, heq]
  rw [Nat.sub_add_cancel hj.le, List.getElem?_eq_none (Nat.le_refl _)] at hsteps
  have hle := List.getElem?_eq_none_iff.1 hsteps
  omega

end Walk

/-! ## Sums of positive parts -/

/-- The ways to write a number as a sum of so many positive parts, in lexicographic order. -/
def compositions : (length n : Nat) → List (List Nat)
  | 0, n => if n = 0 then [[]] else []
  | length + 1, n => (List.range' 1 n).flatMap fun part =>
    (compositions length (n - part)).map (part :: ·)

section Compositions

variable {length n : Nat} {parts : List Nat}

theorem mem_compositions : parts ∈ compositions length n ↔
    parts.length = length ∧ (∀ part ∈ parts, 1 ≤ part) ∧ parts.sum = n := by
  induction length generalizing n parts with
  | zero =>
    rw [compositions]
    split
    next hn => cases parts <;> simp [hn]
    next hn => cases parts <;> simp [Ne.symm hn]
  | succ length ih =>
    simp only [compositions, List.mem_flatMap, List.mem_map, List.mem_range'_1, ih]
    constructor
    · rintro ⟨part, ⟨hpos, hlt⟩, rest, ⟨hlength, hparts, hsum⟩, rfl⟩
      refine ⟨congrArg (· + 1) hlength, List.forall_mem_cons.2 ⟨hpos, hparts⟩, ?_⟩
      rw [List.sum_cons]
      omega
    · rintro ⟨hlength, hparts, rfl⟩
      obtain ⟨part, rest, rfl⟩ := List.exists_cons_of_length_eq_add_one hlength
      obtain ⟨hpos, hparts⟩ := List.forall_mem_cons.1 hparts
      rw [List.sum_cons]
      exact ⟨part, by omega, rest, ⟨Nat.succ.inj hlength, hparts, by omega⟩, rfl⟩

/-- The parts are in lexicographic order. -/
theorem pairwise_compositions : (compositions length n).Pairwise (· < ·) := by
  induction length generalizing n with
  | zero =>
    rw [compositions]
    split <;> simp
  | succ length ih =>
    rw [compositions, List.pairwise_flatMap]
    refine ⟨fun part _ => List.pairwise_map.2 (ih.imp fun h => List.Lex.cons h), ?_⟩
    have hrange : (List.range' 1 n).Pairwise (· < ·) := List.pairwise_lt_range'
    refine hrange.imp fun hlt parts hparts parts' hparts' => ?_
    obtain ⟨rest, -, rfl⟩ := List.mem_map.1 hparts
    obtain ⟨rest', -, rfl⟩ := List.mem_map.1 hparts'
    exact List.Lex.rel hlt

/-- There are at most as many positive parts as the number. -/
theorem compositions_eq_nil (h : n < length) : compositions length n = [] := by
  refine List.eq_nil_iff_forall_not_mem.2 fun parts hparts => ?_
  obtain ⟨rfl, hpos, rfl⟩ := mem_compositions.1 hparts
  exact absurd (List.length_le_sum_of_one_le parts hpos) (Nat.not_le.2 h)

theorem compositions_one : compositions 1 n = if n = 0 then [] else [[n]] := by
  cases n with
  | zero => rfl
  | succ n =>
    have hnil : ((List.range' 1 n).flatMap fun part =>
        (compositions 0 (n + 1 - part)).map (part :: ·)) = [] := by
      refine List.flatMap_eq_nil_iff.2 fun part hpart => ?_
      have hlt := (List.mem_range'_1.1 hpart).2
      rw [compositions, if_neg (by omega), List.map_nil]
    rw [compositions, List.range'_concat, List.flatMap_append, hnil]
    simp [compositions, Nat.add_comm]

variable {inhabited : Nat → Nat → Bool} {ks : List Nat}

/-- Whether there are derivations for all the parts. -/
def allInhabited (inhabited : Nat → Nat → Bool) (ks parts : List Nat) : Bool :=
  (List.zipWith inhabited ks parts).all id

/-- The splits are the sums whose parts all have derivations. -/
theorem splits_eq_filter (pos : ∀ k, inhabited k 0 = false) :
    splits inhabited ks n =
      (compositions ks.length n).filter (allInhabited inhabited ks) := by
  induction ks generalizing n with
  | nil =>
    rw [splits, List.length_nil, compositions]
    split <;> rfl
  | cons k ks ih =>
    cases ks with
    | nil =>
      rw [splits, List.length_singleton, compositions_one]
      by_cases hn : n = 0
      · simp [hn, pos]
      · cases hk : inhabited k n <;> simp [hn, hk, allInhabited]
    | cons k' ks =>
      have hsplit : List.range' 1 n = List.range' 1 (n - (k' :: ks).length) ++
          List.range' (1 + (n - (k' :: ks).length)) (n - (n - (k' :: ks).length)) := by
        rw [List.range'_append_1, Nat.add_sub_cancel' (Nat.sub_le _ _)]
      -- A first part that leaves too little for the other parts.
      have hnil : ((List.range' (1 + (n - (k' :: ks).length))
          (n - (n - (k' :: ks).length))).flatMap fun part =>
            (compositions (k' :: ks).length (n - part)).map (part :: ·)) = [] := by
        refine List.flatMap_eq_nil_iff.2 fun part hpart => ?_
        have hge := (List.mem_range'_1.1 hpart).1
        rw [compositions_eq_nil (by simp only [List.length_cons] at hge ⊢; omega), List.map_nil]
      have hlength : (k :: k' :: ks).length = (k' :: ks).length + 1 := rfl
      rw [splits, hlength, compositions, hsplit, List.flatMap_append, hnil, List.append_nil,
        List.filter_flatMap]
      refine List.flatMap_congr fun part _ => ?_
      rw [List.filter_map, ih]
      cases hk : inhabited k part with
      | true =>
        rw [if_pos rfl]
        refine congrArg (List.map (part :: ·)) (List.filter_congr fun rest _ => ?_)
        simp [allInhabited, hk]
      | false =>
        rw [if_neg Bool.false_ne_true, List.filter_eq_nil_iff.2, List.map_nil]
        simp [allInhabited, hk]

end Compositions

/-! ## The listing -/

/-- There is no choice where a list is empty. -/
theorem product_eq_nil {α : Type} {ls : List (List α)} (h : [] ∈ ls) : product ls = [] := by
  induction ls with
  | nil => cases h
  | cons l ls ih =>
    rcases List.mem_cons.1 h with rfl | h
    · rfl
    · exact List.flatMap_eq_nil_iff.2 fun a _ => by rw [ih h, List.map_nil]

/-- Elements without images may be left out. -/
theorem flatMap_filter_of_eq_nil {α β : Type} {f : α → List β} {p : α → Bool} {l : List α}
    (h : ∀ a ∈ l, ¬p a = true → f a = []) : (l.filter p).flatMap f = l.flatMap f := by
  induction l with
  | nil => rfl
  | cons a l ih =>
    have ih := ih fun b hb => h b (List.mem_cons_of_mem a hb)
    by_cases ha : p a = true
    · rw [List.filter_cons_of_pos ha, List.flatMap_cons, List.flatMap_cons, ih]
    · rw [List.filter_cons_of_neg ha, List.flatMap_cons, h a List.mem_cons_self ha, ih,
        List.nil_append]

namespace Grammar

variable {g : Grammar} {nt rule size : Nat} {r : Rule} {smaller : Nat → Nat → List Deriv}

/-- The derivations by a rule for all sums of positive parts, where `smaller` lists the derivations
for its holes. -/
def listingBy (smaller : Nat → Nat → List Deriv) (nt rule : Nat) (r : Rule) (size : Nat) :
    List Deriv :=
  if size < r.weight then []
  else
    (compositions r.children.length (size - r.weight)).flatMap fun parts =>
      (product (List.zipWith smaller r.children parts)).map (.node nt rule size ·)

/-- The derivations of a nonterminal of a size of at most `depth`, by all rules. -/
def listingTo (g : Grammar) : (depth : Nat) → (nt size : Nat) → List Deriv
  | 0, _, _ => []
  | depth + 1, nt, size => (g.rulesOf nt).zipIdx.flatMap fun (r, rule) =>
    listingBy (g.listingTo depth) nt rule r size

/-- The derivations of a nonterminal of a size, by all rules. -/
def listing (g : Grammar) (nt size : Nat) : List Deriv := g.listingTo size nt size

/-- A part without derivations leaves no choice. -/
theorem product_eq_nil_of_not_inhabited {ks parts : List Nat}
    (h : ¬allInhabited (fun k n => !(smaller k n).isEmpty) ks parts = true) :
    product (List.zipWith smaller ks parts) = [] := by
  refine product_eq_nil ?_
  have hmap : List.zipWith (fun k n => !(smaller k n).isEmpty) ks parts =
      (List.zipWith smaller ks parts).map fun l => !l.isEmpty := by
    rw [List.map_zipWith]
  rw [allInhabited, hmap, Bool.not_eq_true, List.all_eq_false] at h
  obtain ⟨b, hb, hfalse⟩ := h
  obtain ⟨l, hl, rfl⟩ := List.mem_map.1 hb
  obtain rfl : l = [] := by simpa using hfalse
  exact hl

/-- The parts without derivations may be left out. -/
theorem listingBy_eq (pos : ∀ k, smaller k 0 = []) :
    listingBy smaller nt rule r size = derivationsBy smaller nt rule r size := by
  unfold listingBy derivationsBy
  split
  next => rfl
  next =>
    rw [splits_eq_filter fun k => by rw [pos]; rfl]
    refine (flatMap_filter_of_eq_nil fun parts _ hparts => ?_).symm
    rw [product_eq_nil_of_not_inhabited hparts, List.map_nil]

theorem listingTo_eq (depth : Nat) : g.listingTo depth = g.derivationsTo depth := by
  induction depth with
  | zero => rfl
  | succ depth ih =>
    funext nt size
    refine List.flatMap_congr fun (r, rule) _ => ?_
    rw [ih]
    exact listingBy_eq fun k => derivationsTo_zero depth

theorem listing_eq : g.listing = g.derivations := by
  funext nt size
  exact congrFun (congrFun (listingTo_eq size) nt) size

/-! ## The walk -/

/-- From the first derivation of a nonterminal of some size, `Deriv.next?` walks the list defined by
plain recursion to its end, and the list has every derivation of the size once. The table is that of
any enumerator over the grammar, with the rows that it needs and perhaps more. The sums that the
recursion goes through are all sums of positive parts, in lexicographic order. -/
theorem walks_listing {e : Enumerator g} {maxSize : Option Nat} (h : e.Obtained g maxSize)
    (nt : Nat) {size bound : Nat} (hle : size ≤ bound) :
    (g.listing nt size = (g.rulesOf nt).zipIdx.flatMap fun (r, rule) =>
      listingBy g.listing nt rule r size) ∧
    (∀ length n, (compositions length n).Pairwise (· < ·) ∧ ∀ parts,
      parts ∈ compositions length n ↔
        parts.length = length ∧ (∀ part ∈ parts, 1 ≤ part) ∧ parts.sum = n) ∧
    (∀ i, (fun d => d.bind (Deriv.next? g (e.table.cover g bound)))^[i]
      ((e.table.cover g bound).first nt size) = (g.listing nt size)[i]?) ∧
    (g.listing nt size).Nodup ∧
    ∀ d, d ∈ g.listing nt size ↔ d.Valid g ∧ d.nt = nt ∧ d.size = size := by
  have htable := h.spec.1.cover bound
  have hrows : size < (e.table.cover g bound).rows.size :=
    hle.trans_lt (h.spec.1.lt_size_cover bound)
  have hwalk : Follows (Deriv.next? g (e.table.cover g bound)) (g.derivations nt size) none :=
    follows_next? (htable.below.mono hrows.le)
  rw [listing_eq]
  refine ⟨?_, fun _ _ => ⟨pairwise_compositions, fun _ => mem_compositions⟩, fun i => ?_,
    hwalk.nodup, fun d => mem_derivations⟩
  · rw [derivations_eq]
    refine List.flatMap_congr fun (r, rule) _ => ?_
    exact (listingBy_eq fun k => derivations_zero).symm
  · rw [htable.below size hrows nt]
    exact hwalk.iterate_eq i

/-- One literal, and the conjunctions made from it. -/
def conjunctions : Grammar := single [.bool true, .nary .and [.id "B", .id "B"]]

/-- The table of an enumerator that has returned the literal leads through both conjunctions of
three literals. -/
theorem walks_conjunctions : ∃ e, (Enumerator.new conjunctions none).next 1 =
      some (some (.bool true), e) ∧
    (conjunctions.listing start 5).map (Deriv.term conjunctions) =
      [.nary .and [.bool true, .nary .and [.bool true, .bool true]],
        .nary .and [.nary .and [.bool true, .bool true], .bool true]] ∧
    ∀ i, (fun d => d.bind (Deriv.next? conjunctions (e.table.cover conjunctions 6)))^[i]
      ((e.table.cover conjunctions 6).first start 5) = (conjunctions.listing start 5)[i]? := by
  have hrules : conjunctions.rulesOf start = [⟨.bool true, [], 1⟩,
      ⟨.nary .and [.id "B", .id "B"], [0, 0], 1⟩] := rfl
  have hnext := Enumerator.next_new none hrules rfl rfl (by decide) 0
  exact ⟨_, hnext, by decide, (walks_listing (.next .new hnext) start (by decide)).2.2.1⟩

end Grammar

end InvariantSearch
