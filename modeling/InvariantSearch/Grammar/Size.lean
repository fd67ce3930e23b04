import InvariantSearch.Grammar.Basic
import Std.Data.HashMap

/-!
# Sizes of derivations

The size of a derivation is the sum of the weights of its rules. `Grammar.minSize` is the size of
the smallest derivation of a term, and `Grammar.maxSize` that of the largest derivation of all.

The sizes of a term are found from those of the terms in the holes of its rules;
`Grammar.addSizes` remembers the sizes of each of those, and `Grammar.minSize_eq` says that this is
the same as to find them anew each time. Bare rules are relaxed in rounds that are repeated until
nothing changes (`settle`), and so are the productive nonterminals found. The largest derivation is
searched for depth first among those (`Grammar.visit`).
-/

namespace InvariantSearch

/-- Repeats a round until nothing changes any more, at most so many times. -/
def settle {α : Type} [BEq α] (round : α → α) : (rounds : Nat) → α → α
  | 0, a => a
  | rounds + 1, a =>
    let b := round a
    if b == a then a else settle round rounds b

/-- It does not matter that the rounds end early. -/
theorem settle_eq_repeat {α : Type} [BEq α] [LawfulBEq α] (round : α → α) (rounds : Nat) (a : α) :
    settle round rounds a = Nat.repeat round rounds a := by
  have shift (n : Nat) (a : α) : Nat.repeat round n (round a) = round (Nat.repeat round n a) := by
    induction n with
    | zero => rfl
    | succ n ih => simp only [Nat.repeat, ih]
  have fixed {a : α} (h : round a = a) (n : Nat) : Nat.repeat round n a = a := by
    induction n with
    | zero => rfl
    | succ n ih => simp only [Nat.repeat, ih, h]
  induction rounds generalizing a with
  | zero => rfl
  | succ n ih =>
    simp only [settle]
    split
    next h => exact (fixed (eq_of_beq h) _).symm
    next => rw [ih, shift]; rfl

namespace Grammar

/-! ## The smallest derivation of a term -/

/-- A way to derive a term by a rule: the weight of the rule, and the terms in its holes with their
nonterminals. -/
structure Way where
  weight : Nat
  parts : List (Nat × Term)

/-- The ways to derive a term by one of the rules that are not bare. -/
def waysBy (g : Grammar) (t : Term) (rules : List Rule) : List Way :=
  rules.filterMap fun r =>
    match r.bare? with
    | some _ => none
    | none => (r.template.match? g.index t).map (⟨r.weight, ·⟩)

/-- The ways to derive a term from each nonterminal. -/
def ways (g : Grammar) (t : Term) : List (List Way) := g.rules.map (g.waysBy t)

/-- The bare rules: the nonterminal, the one that it produces, and the weight. -/
def bareRules (g : Grammar) : List (Nat × Nat × Nat) :=
  g.rules.zipIdx.flatMap fun (rules, nt) =>
    rules.filterMap fun r => r.bare?.map fun c => (nt, c, r.weight)

/-- One round over the bare rules, from the last to the first: each may lower the size of its
nonterminal. -/
def relaxOnce (bare : List (Nat × Nat × Nat)) (sizes : Array (Option Nat)) : Array (Option Nat) :=
  bare.foldr
    (fun (nt, c, weight) sizes =>
      sizes.setIfInBounds nt
        (Option.merge min sizes[nt]?.join (sizes[c]?.join.map (· + weight))))
    sizes

/-- The sizes that derivations beginning with bare rules add to those that begin with another. A
smallest derivation meets no nonterminal twice on its way through bare rules, so as many rounds as
there are nonterminals reach it. -/
def relax (g : Grammar) (sizes : Array (Option Nat)) : Array (Option Nat) :=
  settle (relaxOnce g.bareRules) g.rules.length sizes

/-- The size of the smallest derivation in a way, given the sizes for the parts. -/
def sizeOfWay (sizeOf : Nat × Term → Option Nat) (way : Way) : Option Nat :=
  (way.parts.mapM sizeOf).map fun sizes => sizes.foldl (· + ·) way.weight

/-- The size of the smallest derivation of a term from each nonterminal, given its ways and the
sizes for their parts. -/
def sizesOf (g : Grammar) (sizeOf : Nat × Term → Option Nat) (ways : List (List Way)) :
    Array (Option Nat) :=
  g.relax (ways.map fun ws => (ws.map (sizeOfWay sizeOf)).foldl (Option.merge min) none).toArray

/-- The size of the smallest derivation of a term of at most `depth` nodes from each nonterminal.
The terms in the holes of a rule that is not bare are smaller than the term. -/
def minSizesTo (g : Grammar) : (depth : Nat) → Term → Array (Option Nat)
  | 0, _ => #[]
  | depth + 1, t => g.sizesOf (fun part => (g.minSizesTo depth part.2)[part.1]?.join) (g.ways t)

/-- Sizes of smallest derivations that are known, by the term and the number of the nonterminal. -/
abbrev SizeTable := Std.HashMap Term (Array (Option Nat))

/-- The known size of the smallest derivation of a term from a nonterminal. -/
def SizeTable.sizeOf (known : SizeTable) (part : Nat × Term) : Option Nat :=
  (known[part.2]?.bind (·[part.1]?)).join

/-- Adds the sizes of a term of at most `depth` nodes, and before those of the parts of its ways. -/
def addSizes (g : Grammar) : (depth : Nat) → SizeTable → Term → SizeTable
  | 0, known, _ => known
  | depth + 1, known, t =>
    if known.contains t then known
    else
      let ways := g.ways t
      let parts := ways.flatMap fun ws => ws.flatMap fun way => way.parts.map (·.2)
      let known := parts.foldl (g.addSizes depth) known
      known.insert t (g.sizesOf known.sizeOf ways)

/-- The size of the smallest derivation of a term from a nonterminal, if there is one. -/
def minSize (g : Grammar) (nt : Nat) (t : Term) : Option Nat :=
  (g.addSizes t.size ∅ t).sizeOf (nt, t)

/-! ### What the table holds -/

/-- The parts of a way to derive a term are smaller than the term. -/
theorem size_lt_of_mem_ways {g : Grammar} {t : Term} {ws : List Way} {way : Way}
    {part : Nat × Term} (hws : ws ∈ g.ways t) (hway : way ∈ ws) (hpart : part ∈ way.parts) :
    part.2.size < t.size := by
  obtain ⟨rules, hrules, rfl⟩ := List.mem_map.mp hws
  obtain ⟨r, hr, h⟩ := List.mem_filterMap.mp hway
  have shape : r.children = r.template.holes g.index := by
    rw [g.rules_eq] at hrules
    obtain ⟨ts, _, rfl⟩ := List.mem_map.mp hrules
    obtain ⟨u, _, rfl⟩ := List.mem_map.mp hr
    rfl
  split at h
  · cases h
  next bare =>
    obtain ⟨parts, hm, rfl⟩ := Option.map_eq_some_iff.mp h
    refine Term.size_lt_of_match? g.index r.template t parts hm (fun x hx => ?_) part hpart
    cases hn : g.index x with
    | none => rfl
    | some nt => simp [Rule.bare?, hx, shape, Term.holes, Term.ids, Term.prependIds, hn] at bare

/-- The sizes of a term depend only on those of the parts of its ways. -/
theorem sizesOf_congr (g : Grammar) {f f' : Nat × Term → Option Nat} (ways : List (List Way))
    (h : ∀ ws ∈ ways, ∀ way ∈ ws, ∀ part ∈ way.parts, f part = f' part) :
    g.sizesOf f ways = g.sizesOf f' ways := by
  have hmap (parts : List (Nat × Term)) (h : ∀ part ∈ parts, f part = f' part) :
      parts.mapM f = parts.mapM f' := by
    induction parts with
    | nil => rfl
    | cons p ps ih => simp_all [List.mapM_cons]
  rw [sizesOf, sizesOf, List.map_congr_left fun ws hws => ?_]
  rw [List.map_congr_left fun way hway => ?_]
  rw [sizeOfWay, sizeOfWay, hmap _ (h ws hws way hway)]

/-- Sizes do not depend on the depth to which they are computed. -/
theorem minSizesTo_eq (g : Grammar) (d d' : Nat) (t : Term) (hd : t.size ≤ d) (hd' : t.size ≤ d') :
    g.minSizesTo d t = g.minSizesTo d' t := by
  induction d generalizing d' t with
  | zero => exact absurd t.size_pos (by omega)
  | succ d ih =>
    cases d' with
    | zero => exact absurd t.size_pos (by omega)
    | succ d' =>
      refine g.sizesOf_congr _ fun ws hws way hway part hpart => ?_
      have := size_lt_of_mem_ways hws hway hpart
      rw [ih d' part.2 (by omega) (by omega)]

/-- What is known of a term is right. -/
def SizeTable.Sound (g : Grammar) (known : SizeTable) : Prop :=
  ∀ t sizes, known[t]? = some sizes → sizes = g.minSizesTo t.size t

/-- Adding a term keeps the table right and all its terms, and adds the term. -/
theorem addSizes_sound (g : Grammar) (depth : Nat) (known : SizeTable) (t : Term)
    (ht : t.size ≤ depth) (sound : known.Sound g) :
    (g.addSizes depth known t).Sound g ∧ t ∈ g.addSizes depth known t ∧
      ∀ s ∈ known, s ∈ g.addSizes depth known t := by
  induction depth generalizing known t with
  | zero => exact absurd t.size_pos (by omega)
  | succ depth ih =>
    have all (ts : List Term) (known : SizeTable) (hts : ∀ s ∈ ts, s.size ≤ depth)
        (sound : known.Sound g) :
        (ts.foldl (g.addSizes depth) known).Sound g ∧
          (∀ s ∈ ts, s ∈ ts.foldl (g.addSizes depth) known) ∧
          ∀ s ∈ known, s ∈ ts.foldl (g.addSizes depth) known := by
      induction ts generalizing known with
      | nil => exact ⟨sound, by simp, fun s hs => hs⟩
      | cons u us ihs =>
        obtain ⟨sound, hu, keeps⟩ := ih known u (hts u (by simp)) sound
        obtain ⟨sound, hus, keeps'⟩ := ihs _ (fun s hs => hts s (by simp [hs])) sound
        refine ⟨sound, fun s hs => ?_, fun s hs => keeps' s (keeps s hs)⟩
        rcases List.mem_cons.mp hs with rfl | hs
        · exact keeps' s hu
        · exact hus s hs
    simp only [addSizes]
    split
    next h => exact ⟨sound, by simpa using h, fun s hs => hs⟩
    next h =>
      obtain ⟨sound, hparts, keeps⟩ := all
        ((g.ways t).flatMap fun ws => ws.flatMap fun way => way.parts.map (·.2)) known
        (fun s hs => by
          simp only [List.mem_flatMap, List.mem_map] at hs
          obtain ⟨ws, hws, way, hway, part, hpart, rfl⟩ := hs
          have := size_lt_of_mem_ways hws hway hpart
          omega) sound
      refine ⟨fun s sizes hs => ?_, by simp, fun s hs => by simp [keeps s hs]⟩
      rw [Std.HashMap.getElem?_insert] at hs
      split at hs
      next same =>
        obtain rfl := eq_of_beq same
        obtain rfl := Option.some.inj hs
        obtain ⟨n, hn⟩ : ∃ n, t.size = n + 1 := ⟨t.size - 1, by have := t.size_pos; omega⟩
        rw [hn, minSizesTo]
        refine g.sizesOf_congr _ fun ws hws way hway part hpart => ?_
        have hmem := hparts part.2 <| List.mem_flatMap.mpr
          ⟨ws, hws, List.mem_flatMap.mpr ⟨way, hway, List.mem_map.mpr ⟨part, hpart, rfl⟩⟩⟩
        have hsize := size_lt_of_mem_ways hws hway hpart
        have hget := Std.HashMap.getElem?_eq_some_getElem hmem
        rw [SizeTable.sizeOf, hget, sound _ _ hget,
          g.minSizesTo_eq part.2.size n part.2 (Nat.le_refl _) (by omega)]
        rfl
      next => exact sound s sizes hs

/-- The sizes that the table holds are those that are computed anew for each part. -/
theorem minSize_eq (g : Grammar) (nt : Nat) (t : Term) :
    g.minSize nt t = (g.minSizesTo t.size t)[nt]?.join := by
  have empty : SizeTable.Sound g ∅ := fun s sizes h => by simp at h
  obtain ⟨sound, hmem, -⟩ := g.addSizes_sound t.size ∅ t (Nat.le_refl _) empty
  have hget := Std.HashMap.getElem?_eq_some_getElem hmem
  rw [minSize, SizeTable.sizeOf, hget, sound _ _ hget]
  rfl

/-! ## The largest derivation -/

/-- One round: a nonterminal is productive if the children of one of its rules are. -/
def productiveOnce (g : Grammar) (known : Array Bool) : Array Bool :=
  (g.rules.map fun rules => rules.any fun r => r.children.all fun c => known[c]?.getD false).toArray

/-- The nonterminals that derive a term. -/
def productive (g : Grammar) : Array Bool :=
  settle g.productiveOnce g.rules.length (.replicate g.rules.length false)

/-- The rules of each nonterminal that occur in some derivation, those whose children are all
productive. -/
def usefulRules (g : Grammar) : List (List Rule) :=
  let productive := g.productive
  g.rules.map (·.filter fun r => r.children.all fun c => productive[c]?.getD false)

/-- How far the search for the largest derivation has come with a nonterminal. -/
inductive Mark where
  | unvisited
  | inProgress
  /-- The size of its largest derivation is known. -/
  | done (size : Nat)

/-- A step of the search, which reads and changes the marks of the nonterminals and fails where
derivations become ever larger. -/
abbrev Visit := StateT (Array Mark) Option

/-- Combines the sizes for the elements of a list with a first size, from left to right. -/
def gather {α : Type} (op : Nat → Nat → Nat) (sizeOf : α → Visit Nat) (first : Nat) (as : List α) :
    Visit Nat :=
  as.foldlM (fun size a => do return op size (← sizeOf a)) first

/-- The size of the largest derivation of a nonterminal by the given rules, with `add` to add sizes.
A nonterminal that is met again while it is in progress leads back to itself, and the search fails.
Visits are nested no deeper than there are nonterminals, but for one that meets such a
nonterminal. -/
def visit (rules : List (List Rule)) (add : Nat → Nat → Nat) :
    (depth : Nat) → (nt : Nat) → Visit Nat
  | 0, _ => failure
  | depth + 1, nt => fun marks =>
    match marks[nt]? with
    | some (.done size) => some (size, marks)
    | some .unvisited =>
      let sizeBy (r : Rule) := gather add (visit rules add depth) r.weight r.children
      let found := gather max sizeBy 0 ((rules[nt]?).getD []) (marks.setIfInBounds nt .inProgress)
      found.map fun (size, marks) => (size, marks.setIfInBounds nt (.done size))
    | _ => none

/-- The size of the largest derivation, with `add` to add sizes; zero if there is no derivation, and
nothing if derivations become ever larger. They do if and only if useful rules lead from the start
symbol into a cycle. -/
def maxSizeWith (add : Nat → Nat → Nat) (g : Grammar) : Option Nat :=
  if g.productive[start]?.getD false then
    let count := g.rules.length
    ((visit g.usefulRules add (count + 1) start) (.replicate count .unvisited)).map (·.1)
  else some 0

/-- The sum of two sizes in a 64-bit register. -/
def addRegister (a b : Nat) : Nat := (a + b) % UInt64.size

/-- The size of the largest derivation, if there is a largest. Sizes are added up in 64-bit
registers, which is exact below `2 ^ 64`. -/
def maxSize (g : Grammar) : Option Nat := g.maxSizeWith addRegister

end Grammar

end InvariantSearch
