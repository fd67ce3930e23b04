import InvariantSearch.Proofs.LargestDerivation

/-!
# The search for the largest derivation

The search visits nonterminals depth first and marks them. A size that it marks is one that the
rounds find (`finds_visit`), and it marks one wherever the rounds find one (`succeeds_visit`): the
children of a nonterminal are found in earlier rounds than the nonterminal, so that none of them is
in progress, while a nonterminal may well be met again after its visit. So the search finds what the
rounds find (`maxSizeWith_eq`).

It finds a largest derivation for the start symbol if and only if its derivations are bounded
(`isSome_maxSize_iff`), and what it finds is a bound on them as long as no sum leaves a 64-bit
register (`le_maxSize`).
-/

namespace InvariantSearch

namespace Grammar

variable {g : Grammar} {nt c : Nat} {add : Nat → Nat → Nat} {rounds size : Nat}

/-! ## Rounds that find a size -/

/-- A round keeps the sizes that are found. -/
theorem largest_succ (h : g.largest add rounds nt = some size) :
    g.largest add (rounds + 1) nt = some size := by
  induction rounds generalizing nt size with
  | zero => simp at h
  | succ rounds ih =>
    obtain ⟨hnt, values, hvalues, hsize⟩ := largest_succ_iff.1 h
    refine largest_succ_iff.2 ⟨hnt, values, hvalues.imp fun r value => ?_, hsize⟩
    rintro ⟨sizes, hsizes, hvalue⟩
    exact ⟨sizes, hsizes.imp fun c size => ih, hvalue⟩

theorem largest_mono {k : Nat} (hle : rounds ≤ k) (h : g.largest add rounds nt = some size) :
    g.largest add k nt = some size :=
  Nat.le_induction h (fun _ _ => largest_succ) k hle

/-- There is a first round in which a size is found. -/
theorem exists_first_round (h : g.largest add rounds nt = some size) :
    ∃ k < rounds, g.largest add k nt = none ∧ g.largest add (k + 1) nt = some size := by
  induction rounds with
  | zero => simp at h
  | succ rounds ih =>
    cases hbefore : g.largest add rounds nt with
    | none => exact ⟨rounds, Nat.lt_succ_self rounds, hbefore, h⟩
    | some size' =>
      obtain rfl : size' = size := by
        rw [largest_succ hbefore] at h
        exact Option.some.inj h
      obtain ⟨k, hlt, hfirst⟩ := ih hbefore
      exact ⟨k, hlt.trans (Nat.lt_succ_self rounds), hfirst⟩

/-- The size is found for the nonterminal in some round. -/
def Found (g : Grammar) (add : Nat → Nat → Nat) (nt size : Nat) : Prop :=
  ∃ rounds, g.largest add rounds nt = some size

theorem Found.unique {size' : Nat} (h : g.Found add nt size) (h' : g.Found add nt size') :
    size = size' := by
  obtain ⟨k, hk⟩ := h
  obtain ⟨k', hk'⟩ := h'
  have hmax := largest_mono (Nat.le_max_left k k') hk
  rw [largest_mono (Nat.le_max_right k k') hk'] at hmax
  exact (Option.some.inj hmax).symm

/-- What relates each pair of elements in some round, and ever after, relates the lists in one. -/
theorem exists_round {α β : Type} {R : Nat → α → β → Prop} {as : List α} {bs : List β}
    (mono : ∀ {j k a b}, j ≤ k → R j a b → R k a b)
    (h : List.Forall₂ (fun a b => ∃ k, R k a b) as bs) : ∃ k, List.Forall₂ (R k) as bs := by
  induction h with
  | nil => exact ⟨0, .nil⟩
  | cons h _ ih =>
    obtain ⟨j, hj⟩ := h
    obtain ⟨k, hk⟩ := ih
    exact ⟨max j k, .cons (mono (Nat.le_max_left j k) hj)
      (hk.imp fun a b => mono (Nat.le_max_right j k))⟩

/-- The value of a rule is found by adding up what is found for its children. -/
def RuleFound (g : Grammar) (add : Nat → Nat → Nat) (r : Rule) (value : Nat) : Prop :=
  ∃ sizes, List.Forall₂ (g.Found add) r.children sizes ∧ sizes.foldl add r.weight = value

/-- The largest of what is found for the useful rules is found. -/
theorem found_of_rules {values : List Nat} (hnt : nt < g.rules.length)
    (h : List.Forall₂ (g.RuleFound add) (g.usefulRulesOf nt) values) :
    g.Found add nt (values.foldl max 0) := by
  have hround : ∃ k, List.Forall₂ (fun (r : Rule) value => ∃ sizes,
      List.Forall₂ (fun c size => g.largest add k c = some size) r.children sizes ∧
        sizes.foldl add r.weight = value) (g.usefulRulesOf nt) values := by
    refine exists_round ?_ (h.imp fun r value => ?_)
    · rintro j k r value hle ⟨sizes, hsizes, hvalue⟩
      exact ⟨sizes, hsizes.imp fun c size => largest_mono hle, hvalue⟩
    · rintro ⟨sizes, hsizes, hvalue⟩
      obtain ⟨k, hk⟩ :=
        exists_round (R := fun k c size => g.largest add k c = some size) largest_mono hsizes
      exact ⟨k, sizes, hk, hvalue⟩
  obtain ⟨k, hk⟩ := hround
  exact ⟨k + 1, largest_succ_iff.2 ⟨hnt, values, hk, rfl⟩⟩

/-! ## Visits -/

/-- The nonterminal is marked as in progress. -/
def Busy (marks : Array Mark) (nt : Nat) : Prop := marks[nt]? = some .inProgress

/-- There is a mark for each nonterminal, and sizes that are marked are found. -/
structure Marked (g : Grammar) (add : Nat → Nat → Nat) (marks : Array Mark) : Prop where
  length : marks.size = g.rules.length
  found : ∀ nt size, marks[nt]? = some (.done size) → g.Found add nt size

/-- What the action returns is as specified. It keeps the marks right, and leaves no nonterminal in
progress that was not. -/
def Finds (g : Grammar) (add : Nat → Nat → Nat) (act : Visit Nat) (P : Nat → Prop) : Prop :=
  ∀ marks size marks', g.Marked add marks → act marks = some (size, marks') →
    P size ∧ g.Marked add marks' ∧ ∀ nt, Busy marks' nt → Busy marks nt

section Gather

variable {α : Type} {sizeOf : α → Visit Nat} {op : Nat → Nat → Nat} {P : α → Nat → Prop}
  {as : List α}

theorem gather_cons (a : α) (first : Nat) (marks : Array Mark) :
    gather op sizeOf first (a :: as) marks =
      (sizeOf a marks).bind fun (size, marks) => gather op sizeOf (op first size) as marks := by
  rw [gather, List.foldlM_cons]
  show Option.bind (Option.bind _ _) _ = _
  rw [Option.bind_assoc]
  rfl

theorem finds_gather (h : ∀ a ∈ as, g.Finds add (sizeOf a) (P a)) (first : Nat) :
    g.Finds add (gather op sizeOf first as) fun value =>
      ∃ values, List.Forall₂ P as values ∧ values.foldl op first = value := by
  induction as generalizing first with
  | nil =>
    intro marks size marks' hmarks hact
    obtain ⟨rfl, rfl⟩ := Prod.mk.inj (Option.some.inj hact)
    exact ⟨⟨[], .nil, rfl⟩, hmarks, fun _ hbusy => hbusy⟩
  | cons a as ih =>
    intro marks size marks' hmarks hact
    rw [gather_cons] at hact
    obtain ⟨⟨value, marks₁⟩, ha, hact⟩ := Option.bind_eq_some_iff.1 hact
    obtain ⟨hvalue, hmarks₁, hbusy₁⟩ := h a List.mem_cons_self _ _ _ hmarks ha
    obtain ⟨⟨values, hvalues, hsize⟩, hmarks', hbusy⟩ :=
      ih (fun a ha => h a (List.mem_cons_of_mem _ ha)) _ _ _ _ hmarks₁ hact
    exact ⟨⟨value :: values, .cons hvalue hvalues, hsize⟩, hmarks',
      fun nt hnt => hbusy₁ nt (hbusy nt hnt)⟩

end Gather

/-- What a visit of a nonterminal does, by the mark that the nonterminal has. -/
theorem visit_cases {depth : Nat} {marks marks' : Array Mark}
    (h : visit g.usefulRules add depth nt marks = some (size, marks')) :
    marks[nt]? = some (.done size) ∧ marks' = marks ∨
    ∃ k marks₁, depth = k + 1 ∧ marks[nt]? = some .unvisited ∧
      gather max (fun r : Rule => gather add (visit g.usefulRules add k) r.weight r.children) 0
        (g.usefulRulesOf nt) (marks.setIfInBounds nt .inProgress) = some (size, marks₁) ∧
      marks' = marks₁.setIfInBounds nt (.done size) := by
  cases depth with
  | zero => cases h
  | succ k =>
    simp only [visit] at h
    split at h
    next size' hmark =>
      obtain ⟨rfl, rfl⟩ := Prod.mk.inj (Option.some.inj h)
      exact .inl ⟨hmark, rfl⟩
    next hmark =>
      obtain ⟨⟨size', marks₁⟩, hfound, heq⟩ := Option.map_eq_some_iff.1 h
      obtain ⟨rfl, rfl⟩ := Prod.mk.inj heq
      exact .inr ⟨k, marks₁, rfl, hmark, hfound, rfl⟩
    next => cases h

/-- A nonterminal may be marked with what is found for it. -/
theorem Marked.set {marks : Array Mark} {mark : Mark} (h : g.Marked add marks)
    (hmark : ∀ size, mark = .done size → g.Found add nt size) :
    g.Marked add (marks.setIfInBounds nt mark) := by
  refine ⟨by simpa using h.length, fun c size hc => ?_⟩
  rw [Array.getElem?_setIfInBounds] at hc
  split at hc
  next heq =>
    obtain ⟨-, rfl⟩ : _ ∧ mark = .done size := by simpa using hc
    exact heq ▸ hmark size rfl
  next => exact h.found c size hc

theorem busy_set {marks : Array Mark} {mark : Mark} (h : Busy (marks.setIfInBounds nt mark) c) :
    c = nt ∧ mark = .inProgress ∨ c ≠ nt ∧ Busy marks c := by
  rw [Busy, Array.getElem?_setIfInBounds] at h
  split at h
  next heq =>
    obtain ⟨-, rfl⟩ : _ ∧ mark = .inProgress := by simpa using h
    exact .inl ⟨heq.symm, rfl⟩
  next hne => exact .inr ⟨fun heq => hne heq.symm, h⟩

/-- A visit returns the size that the rounds find. -/
theorem finds_visit (depth nt : Nat) :
    g.Finds add (visit g.usefulRules add depth nt) (g.Found add nt) := by
  induction depth generalizing nt with
  | zero =>
    intro marks size marks' _ h
    cases h
  | succ depth ih =>
    intro marks size marks' hmarks h
    obtain ⟨hdone, rfl⟩ | ⟨k, marks₁, hk, hmark, hgather, rfl⟩ := visit_cases h
    · exact ⟨hmarks.found nt size hdone, hmarks, fun _ hbusy => hbusy⟩
    · obtain rfl := Nat.succ.inj hk
      have hlt : nt < g.rules.length := by
        rw [← hmarks.length]
        exact (Array.getElem?_eq_some_iff.1 hmark).1
      have hrule (r : Rule) (_ : r ∈ g.usefulRulesOf nt) :
          g.Finds add (gather add (visit g.usefulRules add depth) r.weight r.children)
            (g.RuleFound add r) :=
        finds_gather (fun c _ => ih c) r.weight
      obtain ⟨⟨values, hvalues, rfl⟩, hmarks₁, hbusy⟩ :=
        finds_gather hrule 0 _ _ _ (hmarks.set fun _ h => by cases h) hgather
      have hfound := found_of_rules hlt hvalues
      refine ⟨hfound, hmarks₁.set fun size hsize => ?_, fun c hc => ?_⟩
      · obtain rfl := Mark.done.inj hsize
        exact hfound
      · obtain ⟨-, hmark⟩ | ⟨hne, hc⟩ := busy_set hc
        · cases hmark
        · obtain ⟨heq, -⟩ | ⟨-, hc⟩ := busy_set (hbusy c hc)
          · exact absurd heq hne
          · exact hc

/-- The action returns a size as long as no nonterminal is in progress for which a size is found in
so many rounds. -/
def Succeeds (g : Grammar) (add : Nat → Nat → Nat) (rounds : Nat) (act : Visit Nat) : Prop :=
  ∀ marks, g.Marked add marks → (∀ c, Busy marks c → g.largest add rounds c = none) →
    ∃ result, act marks = some result

theorem succeeds_gather {α : Type} {sizeOf : α → Visit Nat} {op : Nat → Nat → Nat}
    {P : α → Nat → Prop} {as : List α} (hfinds : ∀ a ∈ as, g.Finds add (sizeOf a) (P a))
    (h : ∀ a ∈ as, g.Succeeds add rounds (sizeOf a)) (first : Nat) :
    g.Succeeds add rounds (gather op sizeOf first as) := by
  induction as generalizing first with
  | nil => exact fun marks _ _ => ⟨(first, marks), rfl⟩
  | cons a as ih =>
    intro marks hmarks hbusy
    obtain ⟨⟨size, marks₁⟩, ha⟩ := h a List.mem_cons_self marks hmarks hbusy
    obtain ⟨-, hmarks₁, hkept⟩ := hfinds a List.mem_cons_self _ _ _ hmarks ha
    rw [gather_cons, ha]
    exact ih (fun a ha => hfinds a (List.mem_cons_of_mem _ ha))
      (fun a ha => h a (List.mem_cons_of_mem _ ha)) _ marks₁ hmarks₁
      fun c hc => hbusy c (hkept c hc)

/-- A visit returns a size where the rounds find one. -/
theorem succeeds_visit {depth : Nat} (hle : rounds ≤ depth)
    (h : g.largest add rounds nt = some size) :
    g.Succeeds add rounds (visit g.usefulRules add depth nt) := by
  induction rounds using Nat.strong_induction_on generalizing depth nt size with
  | _ rounds ih =>
    intro marks hmarks hbusy
    -- One round before the first that finds a size, sizes are found for all children, but neither
    -- for the nonterminal nor for those in progress.
    obtain ⟨k, hlt, hnone, hsize⟩ := exists_first_round h
    obtain ⟨hnt, values, hvalues, -⟩ := largest_succ_iff.1 hsize
    obtain ⟨depth, rfl⟩ : ∃ d, depth = d + 1 := Nat.exists_eq_add_one.2 (by omega)
    have hnt' : nt < marks.size := by rwa [hmarks.length]
    simp only [visit, Array.getElem?_eq_getElem hnt']
    cases hmark : marks[nt] with
    | done size => exact ⟨_, rfl⟩
    | inProgress =>
      have hnone := hbusy nt (by rw [Busy, Array.getElem?_eq_getElem hnt', hmark])
      rw [h] at hnone
      cases hnone
    | unvisited =>
      have hgather : g.Succeeds add k (gather max
          (fun r : Rule => gather add (visit g.usefulRules add depth) r.weight r.children) 0
          (g.usefulRulesOf nt)) := by
        refine succeeds_gather (P := g.RuleFound add)
          (fun r _ => finds_gather (fun c _ => finds_visit depth c) r.weight) (fun r hr => ?_) 0
        obtain ⟨value, -, sizes, hsizes, -⟩ := exists_mem_of_forall₂ hvalues hr
        refine succeeds_gather (fun c _ => finds_visit depth c) (fun c hc => ?_) r.weight
        obtain ⟨size, -, hsize⟩ := exists_mem_of_forall₂ hsizes hc
        exact ih k (by omega) (by omega) hsize
      obtain ⟨result, hresult⟩ := hgather (marks.setIfInBounds nt .inProgress)
        (hmarks.set fun _ h => by cases h) fun c hc => by
          obtain ⟨rfl, -⟩ | ⟨-, hc⟩ := busy_set hc
          · exact hnone
          · have hc := hbusy c hc
            by_contra hne
            obtain ⟨size, hsize⟩ := Option.ne_none_iff_exists'.1 hne
            rw [largest_mono (Nat.le_of_lt hlt) hsize] at hc
            cases hc
      exact ⟨_, congrArg (Option.map _) hresult⟩

/-! ## The search -/

/-- The search finds what the rounds find. -/
theorem maxSizeWith_eq : g.maxSizeWith add = if Known g.productive start then
    g.largest add g.rules.length start else some 0 := by
  have hmarks : g.Marked add (.replicate g.rules.length .unvisited) := by
    refine ⟨by simp, fun nt size h => ?_⟩
    rw [Array.getElem?_replicate] at h
    split at h <;> simp at h
  have hbusy : ∀ c, Busy (.replicate g.rules.length .unvisited) c →
      g.largest add g.rules.length c = none := by
    intro c h
    rw [Busy, Array.getElem?_replicate] at h
    split at h <;> simp at h
  have hvisit : ((visit g.usefulRules add (g.rules.length + 1) start)
      (.replicate g.rules.length .unvisited)).map (·.1) =
        g.largest add g.rules.length start := by
    cases hlargest : g.largest add g.rules.length start with
    | some size =>
      obtain ⟨⟨size', marks⟩, h⟩ := succeeds_visit (Nat.le_succ _) hlargest _ hmarks hbusy
      obtain ⟨hfound, -⟩ := finds_visit _ _ _ _ _ hmarks h
      rw [h, Option.map_some, hfound.unique ⟨_, hlargest⟩]
    | none =>
      refine Option.map_eq_none_iff.2 (Option.eq_none_iff_forall_ne_some.2 fun result h => ?_)
      obtain ⟨⟨k, hk⟩, -⟩ := finds_visit _ _ _ _ _ hmarks h
      have hlt : start < g.rules.length := by
        cases k with
        | zero => simp at hk
        | succ k => exact (largest_succ_iff.1 hk).1
      obtain ⟨size, hsize⟩ : ∃ size, g.largest add g.rules.length start = some size :=
        exists_largest hlt (bounded_of_largest hk)
      rw [hlargest] at hsize
      cases hsize
  rw [maxSizeWith]
  show (if Known g.productive start then _ else _) = _
  rw [hvisit]

/-- The largest derivation is found if and only if there is a largest. -/
theorem isSome_maxSizeWith_iff : (g.maxSizeWith add).isSome = true ↔ g.Bounded start := by
  rw [maxSizeWith_eq]
  split
  next hknown =>
    obtain ⟨n, hn⟩ := productive_iff.1 hknown
    obtain ⟨r, hr, -⟩ := hasSize_iff.1 hn
    constructor
    · intro h
      obtain ⟨size, hsize⟩ := Option.isSome_iff_exists.1 h
      exact bounded_of_largest hsize
    · intro h
      exact Option.isSome_iff_exists.2 (exists_largest (lt_length_of_mem hr) h)
  next hknown =>
    refine iff_of_true rfl ⟨0, fun n hn => ?_⟩
    exact absurd (productive_iff.2 ⟨n, hn⟩) hknown

theorem isSome_maxSize_iff : g.maxSize.isSome = true ↔ g.Bounded start :=
  isSome_maxSizeWith_iff

/-- What is found is the size of the largest derivation, as long as sizes do not exceed what can be
added up exactly. -/
theorem maxSizeWith_spec {top : Nat} (hadd : ∀ a b, a + b ≤ top → add a b = a + b)
    (htop : ∀ n, g.HasSize start n → n ≤ top) (h : g.maxSizeWith add = some size) :
    (∀ n, g.HasSize start n → n ≤ size) ∧ (g.Productive start → g.HasSize start size) := by
  rw [maxSizeWith_eq] at h
  split at h
  next => exact largest_spec hadd htop h
  next hknown =>
    refine ⟨fun n hn => ?_, fun hproductive => ?_⟩
    · exact absurd (productive_iff.2 ⟨n, hn⟩) hknown
    · exact absurd (productive_iff.2 hproductive) hknown

/-- What is found bounds all derivations, unless sums leave the register. -/
theorem le_maxSize (hlt : ∀ n, g.HasSize start n → n < UInt64.size) (h : g.maxSize = some size) :
    ∀ n, g.HasSize start n → n ≤ size := by
  have hadd : ∀ a b, a + b ≤ UInt64.size - 1 → addRegister a b = a + b := by
    intro a b hle
    have hpos : 0 < UInt64.size := by decide
    exact Nat.mod_eq_of_lt (by omega)
  exact (maxSizeWith_spec hadd (fun n hn => Nat.le_sub_one_of_lt (hlt n hn)) h).1

end Grammar

end InvariantSearch
