import InvariantSearch.Grammar.Template
import InvariantSearch.Proofs.Typing
import Mathlib.Algebra.Ring.Nat

/-!
# Matching and filling templates

`Term.match?` and `Term.fill` are inverse to each other. What matching finds (`Term.Matches`) has
the nonterminals of the holes in order (`Matches.holes_eq`), and filling the holes with it gives the
term back (`Matches.fill_eq`). Filling the holes with any terms, one for each hole, gives a term in
which matching finds them (`match?_fill`).

So the size of the term is that of the template without its holes and of the terms in the holes
(`Matches.size_eq`), and the term has the sort of the template if the terms in the holes have the
sorts of their nonterminals (`Matches.hasTy`).
-/

namespace InvariantSearch

namespace Term

variable {index : String → Option Nat}

/-! ## Holes -/

theorem prependAllIds_nil (ts : List Term) : prependAllIds [] ts = ts.flatMap ids := by
  induction ts with
  | nil => rfl
  | cons t ts ih => rw [prependAllIds, prependIds_eq, ih, List.flatMap_cons]

/-- The holes of a list of templates. -/
def holesAll (index : String → Option Nat) (ts : List Term) : List Nat :=
  ts.flatMap (holes index)

@[simp] theorem holesAll_nil : holesAll index [] = [] :=
  rfl

@[simp] theorem holesAll_cons (t : Term) (ts : List Term) :
    holesAll index (t :: ts) = t.holes index ++ holesAll index ts :=
  List.flatMap_cons

theorem filterMap_prependAllIds (ts : List Term) :
    (prependAllIds [] ts).filterMap index = holesAll index ts := by
  rw [prependAllIds_nil, List.filterMap_flatMap, holesAll]
  rfl

@[simp] theorem holes_bool (b : Bool) : holes index (.bool b) = [] :=
  rfl

@[simp] theorem holes_int (i : Int64) : holes index (.int i) = [] :=
  rfl

theorem holes_id (x : String) : holes index (.id x) = (index x).toList := by
  rw [holes, ids, prependIds]
  cases h : index x <;> simp [h]

@[simp] theorem holes_app (f : String) (ts : List Term) :
    holes index (.app f ts) = holesAll index ts :=
  filterMap_prependAllIds ts

@[simp] theorem holes_nary (op : NaryOp) (ts : List Term) :
    holes index (.nary op ts) = holesAll index ts :=
  filterMap_prependAllIds ts

@[simp] theorem holes_unary (op : UnaryOp) (t : Term) :
    holes index (.unary op t) = t.holes index :=
  rfl

theorem filterMap_prependIds (s t : Term) :
    (prependIds (prependIds [] t) s).filterMap index = s.holes index ++ t.holes index := by
  rw [prependIds_eq, List.filterMap_append]
  rfl

@[simp] theorem holes_binary (op : BinaryOp) (s t : Term) :
    holes index (.binary op s t) = s.holes index ++ t.holes index :=
  filterMap_prependIds s t

@[simp] theorem holes_arith (op : ArithOp) (s t : Term) :
    holes index (.arith op s t) = s.holes index ++ t.holes index :=
  filterMap_prependIds s t

@[simp] theorem holes_compare (rel : Comparison) (s t : Term) :
    holes index (.compare rel s t) = s.holes index ++ t.holes index :=
  filterMap_prependIds s t

@[simp] theorem holes_ite (c t e : Term) :
    holes index (.ite c t e) = c.holes index ++ (t.holes index ++ e.holes index) := by
  show (prependIds (prependIds (prependIds [] e) t) c).filterMap index = _
  rw [prependIds_eq, List.filterMap_append, filterMap_prependIds]
  rfl

mutual

/-- A template has as many nodes as holes, and one more unless it is a bare hole. -/
theorem length_holes_le : (p : Term) →
    (p.holes index).length ≤ p.size ∧
      ((∀ x, p = .id x → index x = none) → (p.holes index).length < p.size)
  | .id x => by
    rw [holes_id]
    cases hx : index x with
    | none => simp [size]
    | some nt => exact ⟨Nat.le_refl 1, fun h => by simp [h x rfl] at hx⟩
  | .bool _ | .int _ => by simp [size]
  | .app _ ts | .nary _ ts => by
    have := length_holesAll_le ts
    simp only [holes_app, holes_nary, size]
    omega
  | .unary _ t => by
    have := (length_holes_le t).1
    simp only [holes_unary, size]
    omega
  | .binary _ s t | .arith _ s t | .compare _ s t => by
    have := (length_holes_le s).1
    have := (length_holes_le t).1
    simp only [holes_binary, holes_arith, holes_compare, size, List.length_append]
    omega
  | .ite c t e => by
    have := (length_holes_le c).1
    have := (length_holes_le t).1
    have := (length_holes_le e).1
    simp only [holes_ite, size, List.length_append]
    omega

theorem length_holesAll_le : (ps : List Term) → (holesAll index ps).length ≤ sizes ps
  | [] => Nat.le_refl 0
  | p :: ps => by
    have := (length_holes_le p).1
    have := length_holesAll_le ps
    simp only [holesAll_cons, sizes, List.length_append]
    omega

end

/-! ## The rules of matching -/

/-- What two matches find, if both succeed. -/
theorem append_eq_some_iff {α : Type} {a b : Option (List α)} {l : List α} :
    (do return (← a) ++ (← b)) = some l ↔ ∃ as bs, a = some as ∧ b = some bs ∧ as ++ bs = l := by
  cases a <;> cases b <;> simp

mutual

/-- The term is the template with the parts in its holes. -/
inductive Matches (index : String → Option Nat) : Term → Term → List (Nat × Term) → Prop
  | hole {x : String} {nt : Nat} {t : Term} (h : index x = some nt) :
      Matches index (.id x) t [(nt, t)]
  | id {x : String} (h : index x = none) : Matches index (.id x) (.id x) []
  | bool (b : Bool) : Matches index (.bool b) (.bool b) []
  | int (i : Int64) : Matches index (.int i) (.int i) []
  | app (f : String) {ps ts : List Term} {parts : List (Nat × Term)}
      (h : MatchesAll index ps ts parts) : Matches index (.app f ps) (.app f ts) parts
  | unary (op : UnaryOp) {p t : Term} {parts : List (Nat × Term)} (h : Matches index p t parts) :
      Matches index (.unary op p) (.unary op t) parts
  | binary (op : BinaryOp) {p q s t : Term} {as bs : List (Nat × Term)}
      (hs : Matches index p s as) (ht : Matches index q t bs) :
      Matches index (.binary op p q) (.binary op s t) (as ++ bs)
  | nary (op : NaryOp) {ps ts : List Term} {parts : List (Nat × Term)}
      (h : MatchesAll index ps ts parts) : Matches index (.nary op ps) (.nary op ts) parts
  | arith (op : ArithOp) {p q s t : Term} {as bs : List (Nat × Term)}
      (hs : Matches index p s as) (ht : Matches index q t bs) :
      Matches index (.arith op p q) (.arith op s t) (as ++ bs)
  | compare (rel : Comparison) {p q s t : Term} {as bs : List (Nat × Term)}
      (hs : Matches index p s as) (ht : Matches index q t bs) :
      Matches index (.compare rel p q) (.compare rel s t) (as ++ bs)
  | ite {p q r c t e : Term} {as bs cs : List (Nat × Term)} (hc : Matches index p c as)
      (ht : Matches index q t bs) (he : Matches index r e cs) :
      Matches index (.ite p q r) (.ite c t e) (as ++ (bs ++ cs))

/-- The terms are the templates with the parts in their holes. -/
inductive MatchesAll (index : String → Option Nat) :
    List Term → List Term → List (Nat × Term) → Prop
  | nil : MatchesAll index [] [] []
  | cons {p t : Term} {ps ts : List Term} {as bs : List (Nat × Term)} (h : Matches index p t as)
      (hs : MatchesAll index ps ts bs) : MatchesAll index (p :: ps) (t :: ts) (as ++ bs)

end

mutual

theorem matches_of_match? : (p t : Term) → (parts : List (Nat × Term)) →
    p.match? index t = some parts → Matches index p t parts
  | .id x, t, parts, h => by
    simp only [match?] at h
    split at h
    next nt hx =>
      obtain rfl := Option.some.inj h
      exact .hole hx
    next hx =>
      rw [Option.ite_none_right_eq_some] at h
      obtain ⟨rfl, h⟩ := h
      obtain rfl := Option.some.inj h
      exact .id hx
  | .bool a, t, parts, h => by
    cases t <;> simp only [match?, Option.ite_none_right_eq_some, reduceCtorEq] at h
    obtain ⟨rfl, h⟩ := h
    obtain rfl := Option.some.inj h
    exact .bool a
  | .int a, t, parts, h => by
    cases t <;> simp only [match?, Option.ite_none_right_eq_some, reduceCtorEq] at h
    obtain ⟨rfl, h⟩ := h
    obtain rfl := Option.some.inj h
    exact .int a
  | .app f ps, t, parts, h => by
    cases t <;> simp only [match?, Option.ite_none_right_eq_some, reduceCtorEq] at h
    obtain ⟨rfl, h⟩ := h
    exact .app f (matchesAll_of_matchAll? ps _ parts h)
  | .unary op p, t, parts, h => by
    cases t <;> simp only [match?, Option.ite_none_right_eq_some, reduceCtorEq] at h
    obtain ⟨rfl, h⟩ := h
    exact .unary op (matches_of_match? p _ parts h)
  | .binary op p q, t, parts, h => by
    cases t <;> simp only [match?, Option.ite_none_right_eq_some, reduceCtorEq] at h
    obtain ⟨rfl, h⟩ := h
    obtain ⟨as, bs, hs, ht, rfl⟩ := append_eq_some_iff.1 h
    exact .binary op (matches_of_match? p _ as hs) (matches_of_match? q _ bs ht)
  | .nary op ps, t, parts, h => by
    cases t <;> simp only [match?, Option.ite_none_right_eq_some, reduceCtorEq] at h
    obtain ⟨rfl, h⟩ := h
    exact .nary op (matchesAll_of_matchAll? ps _ parts h)
  | .arith op p q, t, parts, h => by
    cases t <;> simp only [match?, Option.ite_none_right_eq_some, reduceCtorEq] at h
    obtain ⟨rfl, h⟩ := h
    obtain ⟨as, bs, hs, ht, rfl⟩ := append_eq_some_iff.1 h
    exact .arith op (matches_of_match? p _ as hs) (matches_of_match? q _ bs ht)
  | .compare rel p q, t, parts, h => by
    cases t <;> simp only [match?, Option.ite_none_right_eq_some, reduceCtorEq] at h
    obtain ⟨rfl, h⟩ := h
    obtain ⟨as, bs, hs, ht, rfl⟩ := append_eq_some_iff.1 h
    exact .compare rel (matches_of_match? p _ as hs) (matches_of_match? q _ bs ht)
  | .ite p q r, t, parts, h => by
    cases t <;> simp only [match?, reduceCtorEq] at h
    simp only [Option.pure_def, Option.bind_eq_bind, Option.bind_eq_some_iff,
      Option.some.injEq] at h
    obtain ⟨as, hc, bs, ht, cs, he, rfl⟩ := h
    rw [List.append_assoc]
    exact .ite (matches_of_match? p _ as hc) (matches_of_match? q _ bs ht)
      (matches_of_match? r _ cs he)

theorem matchesAll_of_matchAll? : (ps ts : List Term) → (parts : List (Nat × Term)) →
    matchAll? index ps ts = some parts → MatchesAll index ps ts parts
  | [], ts, parts, h => by
    cases ts <;> simp only [matchAll?, reduceCtorEq] at h
    obtain rfl := Option.some.inj h
    exact .nil
  | p :: ps, ts, parts, h => by
    cases ts <;> simp only [matchAll?, reduceCtorEq] at h
    obtain ⟨as, bs, ha, hb, rfl⟩ := append_eq_some_iff.1 h
    exact .cons (matches_of_match? p _ as ha) (matchesAll_of_matchAll? ps _ bs hb)

end

mutual

theorem Matches.match?_eq : {p t : Term} → {parts : List (Nat × Term)} →
    Matches index p t parts → p.match? index t = some parts
  | _, _, _, .hole h | _, _, _, .id h => by simp [match?, h]
  | _, _, _, .bool b | _, _, _, .int b => by simp [match?]
  | _, _, _, .app f h | _, _, _, .nary f h => by simp [match?, h.matchAll?_eq]
  | _, _, _, .unary op h => by simp [match?, h.match?_eq]
  | _, _, _, .binary op hs ht | _, _, _, .arith op hs ht | _, _, _, .compare op hs ht => by
    simp [match?, hs.match?_eq, ht.match?_eq]
  | _, _, _, .ite hc ht he => by simp [match?, hc.match?_eq, ht.match?_eq, he.match?_eq]

theorem MatchesAll.matchAll?_eq : {ps ts : List Term} → {parts : List (Nat × Term)} →
    MatchesAll index ps ts parts → matchAll? index ps ts = some parts
  | _, _, _, .nil => rfl
  | _, _, _, .cons h hs => by simp [matchAll?, h.match?_eq, hs.matchAll?_eq]

end

theorem match?_eq_some_iff {p t : Term} {parts : List (Nat × Term)} :
    p.match? index t = some parts ↔ Matches index p t parts :=
  ⟨matches_of_match? p t parts, Matches.match?_eq⟩

/-! ## What matching finds -/

mutual

/-- Matching finds the nonterminals of the holes, left to right. -/
theorem Matches.holes_eq : {p t : Term} → {parts : List (Nat × Term)} →
    Matches index p t parts → parts.map Prod.fst = p.holes index
  | _, _, _, .hole h | _, _, _, .id h => by simp [holes_id, h]
  | _, _, _, .bool _ | _, _, _, .int _ => rfl
  | _, _, _, .app _ h | _, _, _, .nary _ h => by simp [h.holesAll_eq]
  | _, _, _, .unary _ h => by simp [h.holes_eq]
  | _, _, _, .binary _ hs ht | _, _, _, .arith _ hs ht | _, _, _, .compare _ hs ht => by
    simp [hs.holes_eq, ht.holes_eq]
  | _, _, _, .ite hc ht he => by simp [hc.holes_eq, ht.holes_eq, he.holes_eq]

theorem MatchesAll.holesAll_eq : {ps ts : List Term} → {parts : List (Nat × Term)} →
    MatchesAll index ps ts parts → parts.map Prod.fst = holesAll index ps
  | _, _, _, .nil => rfl
  | _, _, _, .cons h hs => by simp [h.holes_eq, hs.holesAll_eq]

end

mutual

/-- Filling the holes with what matching finds gives the term back. -/
theorem Matches.fill_eq (rest : List Term) : {p t : Term} → {parts : List (Nat × Term)} →
    Matches index p t parts → p.fill index (parts.map Prod.snd ++ rest) = (t, rest)
  | _, _, _, .hole h | _, _, _, .id h => by simp [fill, h]
  | _, _, _, .bool _ | _, _, _, .int _ => rfl
  | _, _, _, .app _ h | _, _, _, .nary _ h => by rw [fill, h.fillAll_eq rest]
  | _, _, _, .unary _ h => by rw [fill, h.fill_eq rest]
  | _, _, _, .binary _ hs ht | _, _, _, .arith _ hs ht | _, _, _, .compare _ hs ht => by
    simp [fill, hs.fill_eq, ht.fill_eq]
  | _, _, _, .ite hc ht he => by simp [fill, hc.fill_eq, ht.fill_eq, he.fill_eq]

theorem MatchesAll.fillAll_eq (rest : List Term) : {ps ts : List Term} →
    {parts : List (Nat × Term)} → MatchesAll index ps ts parts →
    fillAll index ps (parts.map Prod.snd ++ rest) = (ts, rest)
  | _, _, _, .nil => rfl
  | _, _, _, .cons h hs => by
    simp [fillAll, h.fill_eq, hs.fillAll_eq]

end

mutual

/-- The term consists of the nodes of the template that are not holes and of the parts. -/
theorem Matches.size_eq : {p t : Term} → {parts : List (Nat × Term)} → Matches index p t parts →
    t.size + parts.length = p.size + (parts.map fun part => part.2.size).sum
  | _, _, _, .hole _ | _, _, _, .id _ | _, _, _, .bool _ | _, _, _, .int _ => by
    simp [size, Nat.add_comm]
  | _, _, _, .app _ h | _, _, _, .nary _ h => by
    have := h.sizes_eq
    simp only [size]
    omega
  | _, _, _, .unary _ h => by
    have := h.size_eq
    simp only [size]
    omega
  | _, _, _, .binary _ hs ht | _, _, _, .arith _ hs ht | _, _, _, .compare _ hs ht => by
    have := hs.size_eq
    have := ht.size_eq
    simp only [size, List.map_append, List.sum_append, List.length_append]
    omega
  | _, _, _, .ite hc ht he => by
    have := hc.size_eq
    have := ht.size_eq
    have := he.size_eq
    simp only [size, List.map_append, List.sum_append, List.length_append]
    omega

theorem MatchesAll.sizes_eq : {ps ts : List Term} → {parts : List (Nat × Term)} →
    MatchesAll index ps ts parts →
    sizes ts + parts.length = sizes ps + (parts.map fun part => part.2.size).sum
  | _, _, _, .nil => rfl
  | _, _, _, .cons h hs => by
    have := h.size_eq
    have := hs.sizes_eq
    simp only [sizes, List.map_append, List.sum_append, List.length_append]
    omega

end

/-! ## Filling with any terms -/

/-- A list that is as long as two others together is split in the same way. -/
theorem exists_append_of_length {α : Type} {l : List α} {m n : Nat} (h : l.length = m + n) :
    ∃ as bs, l = as ++ bs ∧ as.length = m ∧ bs.length = n :=
  ⟨l.take m, l.drop m, (List.take_append_drop m l).symm, by simp [h], by simp [h]⟩

/-- If any terms are in the holes of each of two templates, one list of terms is shared out between
the two. -/
theorem exists_matches_append {p q : Term} {ts : List Term}
    (hp : ∀ ts, ts.length = (p.holes index).length →
      ∃ t, Matches index p t ((p.holes index).zip ts))
    (hq : ∀ ts, ts.length = (q.holes index).length →
      ∃ t, Matches index q t ((q.holes index).zip ts))
    (h : ts.length = (p.holes index ++ q.holes index).length) :
    ∃ s t as bs, Matches index p s as ∧ Matches index q t bs ∧
      (p.holes index ++ q.holes index).zip ts = as ++ bs := by
  rw [List.length_append] at h
  obtain ⟨as, bs, rfl, ha, hb⟩ := exists_append_of_length h
  obtain ⟨s, hs⟩ := hp as ha
  obtain ⟨t, ht⟩ := hq bs hb
  exact ⟨s, t, _, _, hs, ht, List.zip_append ha.symm⟩

mutual

/-- Any terms, one for each hole, are in the holes of some term. -/
theorem exists_matches : (p : Term) → (ts : List Term) → ts.length = (p.holes index).length →
    ∃ t, Matches index p t ((p.holes index).zip ts)
  | .id x, ts, h => by
    rw [holes_id] at h ⊢
    cases hx : index x with
    | none => exact ⟨.id x, .id hx⟩
    | some nt =>
      rw [hx] at h
      obtain ⟨t, rfl⟩ := List.length_eq_one_iff.1 h
      exact ⟨t, .hole hx⟩
  | .bool b, ts, _ => ⟨.bool b, .bool b⟩
  | .int i, ts, _ => ⟨.int i, .int i⟩
  | .app f ps, ts, h => by
    rw [holes_app] at h ⊢
    obtain ⟨us, hus⟩ := exists_matchesAll ps ts h
    exact ⟨_, .app f hus⟩
  | .nary op ps, ts, h => by
    rw [holes_nary] at h ⊢
    obtain ⟨us, hus⟩ := exists_matchesAll ps ts h
    exact ⟨_, .nary op hus⟩
  | .unary op p, ts, h => by
    obtain ⟨t, ht⟩ := exists_matches p ts h
    exact ⟨_, .unary op ht⟩
  | .binary op p q, ts, h => by
    rw [holes_binary] at h ⊢
    obtain ⟨s, t, as, bs, hs, ht, heq⟩ :=
      exists_matches_append (exists_matches p) (exists_matches q) h
    rw [heq]
    exact ⟨_, .binary op hs ht⟩
  | .arith op p q, ts, h => by
    rw [holes_arith] at h ⊢
    obtain ⟨s, t, as, bs, hs, ht, heq⟩ :=
      exists_matches_append (exists_matches p) (exists_matches q) h
    rw [heq]
    exact ⟨_, .arith op hs ht⟩
  | .compare rel p q, ts, h => by
    rw [holes_compare] at h ⊢
    obtain ⟨s, t, as, bs, hs, ht, heq⟩ :=
      exists_matches_append (exists_matches p) (exists_matches q) h
    rw [heq]
    exact ⟨_, .compare rel hs ht⟩
  | .ite p q r, ts, h => by
    rw [holes_ite, List.length_append, List.length_append] at h
    obtain ⟨as, ts, rfl, ha, h⟩ := exists_append_of_length h
    obtain ⟨bs, cs, rfl, hb, hc⟩ := exists_append_of_length h
    obtain ⟨c, hc'⟩ := exists_matches p as ha
    obtain ⟨t, ht⟩ := exists_matches q bs hb
    obtain ⟨e, he⟩ := exists_matches r cs hc
    rw [holes_ite, List.zip_append ha.symm, List.zip_append hb.symm]
    exact ⟨_, .ite hc' ht he⟩

theorem exists_matchesAll : (ps : List Term) → (ts : List Term) →
    ts.length = (holesAll index ps).length →
    ∃ us, MatchesAll index ps us ((holesAll index ps).zip ts)
  | [], ts, _ => ⟨[], .nil⟩
  | p :: ps, ts, h => by
    rw [holesAll_cons, List.length_append] at h
    obtain ⟨as, bs, rfl, ha, hb⟩ := exists_append_of_length h
    obtain ⟨u, hu⟩ := exists_matches p as ha
    obtain ⟨us, hus⟩ := exists_matchesAll ps bs hb
    rw [holesAll_cons, List.zip_append ha.symm]
    exact ⟨_, .cons hu hus⟩

end

/-- Matching a filled template finds what it was filled with. -/
theorem match?_fill {p : Term} {ts : List Term} (h : ts.length = (p.holes index).length) :
    p.match? index (p.fill index ts).1 = some ((p.holes index).zip ts) := by
  obtain ⟨t, ht⟩ := exists_matches p ts h
  have hfill := ht.fill_eq []
  rw [List.map_snd_zip (Nat.le_of_eq h), List.append_nil] at hfill
  rw [hfill]
  exact ht.match?_eq

/-! ## Sorts -/

mutual

/-- A term has the sort of the template if the parts have the sorts of their nonterminals. The
template is sorted where the nonterminals are variables, and the term where they are not. -/
theorem Matches.hasTy {sig : Signature} {ctx ctx' : Context} {sort : Nat → Option Ty}
    (hctx : ∀ x, ctx x = match index x with | some nt => sort nt | none => ctx' x) :
    {p t : Term} → {parts : List (Nat × Term)} → {ty : Ty} → Matches index p t parts →
    HasTy sig ctx p ty → (∀ part ∈ parts, ∀ ty, sort part.1 = some ty → HasTy sig ctx' part.2 ty) →
    HasTy sig ctx' t ty
  | _, _, _, _, .hole hx, .id h, hparts => by
    rw [hctx, hx] at h
    exact hparts _ List.mem_cons_self _ h
  | _, _, _, _, .id hx, .id h, _ => by
    rw [hctx, hx] at h
    exact .id h
  | _, _, _, _, .bool b, .bool _, _ => .bool b
  | _, _, _, _, .int i, .int _, _ => .int i
  | _, _, _, _, .app f hs, .app hf arity typed, hparts => by
    obtain ⟨arity', typed'⟩ := hs.hasTy hctx arity typed hparts
    exact .app hf arity' typed'
  | _, _, _, _, .unary _ h, .not hp, hparts => .not (h.hasTy hctx hp hparts)
  | _, _, _, _, .unary _ h, .neg hp, hparts => .neg (h.hasTy hctx hp hparts)
  | _, _, _, _, .binary _ hs ht, .equals hp hq, hparts =>
    .equals (hs.hasTy hctx hp fun part h => hparts part (List.mem_append_left _ h))
      (ht.hasTy hctx hq fun part h => hparts part (List.mem_append_right _ h))
  | _, _, _, _, .binary _ hs ht, .implies hp hq, hparts =>
    .implies (hs.hasTy hctx hp fun part h => hparts part (List.mem_append_left _ h))
      (ht.hasTy hctx hq fun part h => hparts part (List.mem_append_right _ h))
  | .nary op ps, .nary _ ts, _, _, .nary _ hs, .nary ne hps, hparts => by
    have allBool {us : List Term} {p : Ty × Term} (hp : p ∈ (ps.map fun _ => Ty.bool).zip us) :
        p.1 = .bool := by
      obtain ⟨_, -, h⟩ := List.mem_map.1 (List.of_mem_zip hp).1
      exact h.symm
    have length : (ps.map fun _ => Ty.bool).length = ps.length := List.length_map _
    obtain ⟨length', typed⟩ := hs.hasTy hctx length
      (fun p hp => allBool hp ▸ hps p.2 (List.of_mem_zip hp).2) hparts
    refine .nary ?_ fun t ht => ?_
    · rw [← List.length_pos_iff, ← length', length]
      exact List.length_pos_iff.2 ne
    · obtain ⟨p, hp, rfl⟩ := exists_mem_zip length' ht
      exact allBool hp ▸ typed p hp
  | _, _, _, _, .arith _ hs ht, .arith hp hq, hparts =>
    .arith (hs.hasTy hctx hp fun part h => hparts part (List.mem_append_left _ h))
      (ht.hasTy hctx hq fun part h => hparts part (List.mem_append_right _ h))
  | _, _, _, _, .compare _ hs ht, .compare hp hq, hparts =>
    .compare (hs.hasTy hctx hp fun part h => hparts part (List.mem_append_left _ h))
      (ht.hasTy hctx hq fun part h => hparts part (List.mem_append_right _ h))
  | _, _, _, _, .ite hc ht he, .ite hp hq hr, hparts =>
    .ite (hc.hasTy hctx hp fun part h => hparts part (by simp [h]))
      (ht.hasTy hctx hq fun part h => hparts part (by simp [h]))
      (he.hasTy hctx hr fun part h => hparts part (by simp [h]))

theorem MatchesAll.hasTy {sig : Signature} {ctx ctx' : Context} {sort : Nat → Option Ty}
    (hctx : ∀ x, ctx x = match index x with | some nt => sort nt | none => ctx' x) :
    {ps ts : List Term} → {parts : List (Nat × Term)} → {tys : List Ty} →
    MatchesAll index ps ts parts → tys.length = ps.length →
    (∀ p ∈ tys.zip ps, HasTy sig ctx p.2 p.1) →
    (∀ part ∈ parts, ∀ ty, sort part.1 = some ty → HasTy sig ctx' part.2 ty) →
    tys.length = ts.length ∧ ∀ p ∈ tys.zip ts, HasTy sig ctx' p.2 p.1
  | _, _, _, _, .nil, length, _, _ => ⟨length, by simp⟩
  | _, _, _, ty :: tys, .cons h hs, length, typed, hparts => by
    have hhead := h.hasTy hctx (typed (ty, _) (by simp))
      fun part hp => hparts part (List.mem_append_left _ hp)
    have htail := hs.hasTy hctx (Nat.succ.inj length) (fun p hp => typed p (by simp [hp]))
      fun part hp => hparts part (List.mem_append_right _ hp)
    exact ⟨congrArg Nat.succ htail.1, List.forall_mem_cons.2 ⟨hhead, htail.2⟩⟩

end

end Term

end InvariantSearch
