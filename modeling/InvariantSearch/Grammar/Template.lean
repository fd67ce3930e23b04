import InvariantSearch.Term.Basic

/-!
# Templates

A template is a term in which the names of nonterminals are holes. `index` tells which names those
are and numbers the nonterminals. `Term.holes` lists the holes from left to right, `Term.fill` puts
terms into them in that order, and `Term.match?` finds the terms that were put in.
-/

namespace InvariantSearch

namespace Term

/-- The nonterminals of the holes, left to right. -/
def holes (index : String → Option Nat) (t : Term) : List Nat := t.ids.filterMap index

mutual

/-- Puts terms into the holes, left to right, and returns the terms that are left over. A hole
without a term stays. -/
def fill (index : String → Option Nat) : Term → List Term → Term × List Term
  | .id x, args =>
    match index x, args with
    | some _, a :: rest => (a, rest)
    | _, _ => (.id x, args)
  | .bool b, args => (.bool b, args)
  | .int i, args => (.int i, args)
  | .app f ts, args =>
    let (ts, args) := fillAll index ts args
    (.app f ts, args)
  | .unary op t, args =>
    let (t, args) := fill index t args
    (.unary op t, args)
  | .binary op s t, args =>
    let (s, args) := fill index s args
    let (t, args) := fill index t args
    (.binary op s t, args)
  | .nary op ts, args =>
    let (ts, args) := fillAll index ts args
    (.nary op ts, args)
  | .arith op s t, args =>
    let (s, args) := fill index s args
    let (t, args) := fill index t args
    (.arith op s t, args)
  | .compare rel s t, args =>
    let (s, args) := fill index s args
    let (t, args) := fill index t args
    (.compare rel s t, args)
  | .ite c t e, args =>
    let (c, args) := fill index c args
    let (t, args) := fill index t args
    let (e, args) := fill index e args
    (.ite c t e, args)

/-- Puts terms into the holes of a list of templates. -/
def fillAll (index : String → Option Nat) : List Term → List Term → List Term × List Term
  | [], args => ([], args)
  | t :: ts, args =>
    let (t, args) := fill index t args
    let (ts, args) := fillAll index ts args
    (t :: ts, args)

end

mutual

/-- The terms that fill the holes of a template to make the given term, each with the nonterminal
of its hole, if the term has the shape of the template. -/
def match? (index : String → Option Nat) : (template : Term) → Term → Option (List (Nat × Term))
  | .id x, t =>
    match index x with
    | some nt => some [(nt, t)]
    | none => if t = .id x then some [] else none
  | .bool a, .bool b => if a = b then some [] else none
  | .int a, .int b => if a = b then some [] else none
  | .app f ss, .app g ts => if f = g then matchAll? index ss ts else none
  | .unary o s, .unary p t => if o = p then match? index s t else none
  | .binary o s₁ s₂, .binary p t₁ t₂ =>
    if o = p then do return (← match? index s₁ t₁) ++ (← match? index s₂ t₂) else none
  | .nary o ss, .nary p ts => if o = p then matchAll? index ss ts else none
  | .arith o s₁ s₂, .arith p t₁ t₂ =>
    if o = p then do return (← match? index s₁ t₁) ++ (← match? index s₂ t₂) else none
  | .compare o s₁ s₂, .compare p t₁ t₂ =>
    if o = p then do return (← match? index s₁ t₁) ++ (← match? index s₂ t₂) else none
  | .ite s₁ s₂ s₃, .ite t₁ t₂ t₃ => do
    return (← match? index s₁ t₁) ++ (← match? index s₂ t₂) ++ (← match? index s₃ t₃)
  | _, _ => none

/-- The terms that fill the holes of a list of templates to make the given list. -/
def matchAll? (index : String → Option Nat) : List Term → List Term → Option (List (Nat × Term))
  | [], [] => some []
  | s :: ss, t :: ts => do return (← match? index s t) ++ (← matchAll? index ss ts)
  | _, _ => none

end

/-! ## The size of what is found -/

theorem size_pos (t : Term) : 0 < t.size := by
  cases t <;> simp [size, Nat.add_comm 1]

/-- What two matches find is as large as the two terms at most. -/
theorem size_le_of_append {a b : Option (List (Nat × Term))} {m n : Nat}
    (ha : ∀ parts, a = some parts → ∀ part ∈ parts, part.2.size ≤ m)
    (hb : ∀ parts, b = some parts → ∀ part ∈ parts, part.2.size ≤ n)
    (parts : List (Nat × Term)) (h : (do return (← a) ++ (← b)) = some parts) :
    ∀ part ∈ parts, part.2.size ≤ m + n := by
  cases a with
  | none => simp at h
  | some as =>
    cases b with
    | none => simp at h
    | some bs =>
      simp only [Option.pure_def, Option.bind_eq_bind, Option.bind_some, Option.some.injEq] at h
      subst h
      intro part hp
      rcases List.mem_append.mp hp with hp | hp
      · have := ha as rfl part hp
        omega
      · have := hb bs rfl part hp
        omega

mutual

/-- The terms in the holes of a template are smaller than the term, unless the template is a bare
hole. -/
theorem size_lt_of_match? (index : String → Option Nat) : (p t : Term) →
    (parts : List (Nat × Term)) → p.match? index t = some parts →
    (∀ x, p = .id x → index x = none) →
    ∀ part ∈ parts, part.2.size < t.size
  | .id x, t, parts, h, bare => by
    simp only [match?, bare x rfl] at h
    split at h <;> simp_all
  | .bool b, t, parts, h, _ | .int b, t, parts, h, _ => by cases t <;> simp_all [match?]
  | .app f ss, t, parts, h, _ | .nary f ss, t, parts, h, _ => by
    cases t <;> simp [match?] at h
    have := sizes_le_of_matchAll? index ss _ parts h.2
    simp only [size]
    grind
  | .unary f s, t, parts, h, _ => by
    cases t <;> simp [match?] at h
    have := size_le_of_match? index s _ parts h.2
    simp only [size]
    grind
  | .binary f s₁ s₂, t, parts, h, _ | .arith f s₁ s₂, t, parts, h, _
  | .compare f s₁ s₂, t, parts, h, _ => by
    cases t <;> simp only [match?, reduceCtorEq] at h
    split at h
    · have := size_le_of_append (size_le_of_match? index s₁ _) (size_le_of_match? index s₂ _)
        parts h
      simp only [size]
      grind
    · cases h
  | .ite s₁ s₂ s₃, t, parts, h, _ => by
    cases t <;> simp only [match?, reduceCtorEq] at h
    next t₁ t₂ t₃ =>
    have h : (do return (← (do return (← s₁.match? index t₁) ++ (← s₂.match? index t₂))) ++
        (← s₃.match? index t₃)) = some parts := by
      simpa [Option.bind_assoc] using h
    have := size_le_of_append
      (size_le_of_append (size_le_of_match? index s₁ _) (size_le_of_match? index s₂ _))
      (size_le_of_match? index s₃ _) parts h
    simp only [size]
    grind

/-- The terms in the holes of a template are at most as large as the term. -/
theorem size_le_of_match? (index : String → Option Nat) (p t : Term)
    (parts : List (Nat × Term)) (h : p.match? index t = some parts) :
    ∀ part ∈ parts, part.2.size ≤ t.size := by
  by_cases bare : ∀ x, p = .id x → index x = none
  · intro part hp
    exact Nat.le_of_lt (size_lt_of_match? index p t parts h bare part hp)
  · grind [match?]

theorem sizes_le_of_matchAll? (index : String → Option Nat) : (ps ts : List Term) →
    (parts : List (Nat × Term)) → matchAll? index ps ts = some parts →
    ∀ part ∈ parts, part.2.size ≤ sizes ts
  | [], ts, parts, h => by cases ts <;> simp_all [matchAll?]
  | p :: ps, ts, parts, h => by
    cases ts <;> simp only [matchAll?, reduceCtorEq] at h
    exact size_le_of_append (size_le_of_match? index p _) (sizes_le_of_matchAll? index ps _) parts h

end

end Term

end InvariantSearch
