import InvariantSearch.Grammar.Size

/-!
# The order of derivations

The derivations of a nonterminal of one size are ordered by the rule at the root, then by how the
remaining size is split among the rule's holes, in lexicographic order, and then by the derivations
in the holes, of which the rightmost varies fastest.

`Deriv.next?` computes each derivation from the one before it. It looks up the first derivation of
every smaller size in a `Table`, which is extended row by row: the row of a size depends only on the
rows before it, since every rule has a positive weight. An entry of the table is computed when it is
looked up for the first time, so that nonterminals and sizes that are not needed take no time.
-/

namespace InvariantSearch

/-- A derivation: the nonterminal and the number of the rule at its root, its size, and the
derivations in the holes of the rule. -/
inductive Deriv where
  | node (nt rule size : Nat) (children : List Deriv)

namespace Deriv

/-- The nonterminal at the root. -/
def nt : Deriv → Nat
  | node nt _ _ _ => nt

/-- The number of the rule at the root. -/
def rule : Deriv → Nat
  | node _ rule _ _ => rule

/-- The sum of the weights of the rules. -/
def size : Deriv → Nat
  | node _ _ size _ => size

/-- The derivations in the holes of the rule at the root. -/
def children : Deriv → List Deriv
  | node _ _ _ children => children

mutual

/-- The term that is derived. -/
def term (g : Grammar) : Deriv → Term
  | node nt rule _ children =>
    match (g.rulesOf nt)[rule]? with
    | some r => g.instantiate r (terms g children)
    | none => .bool true

/-- The terms that are derived. -/
def terms (g : Grammar) : List Deriv → List Term
  | [] => []
  | d :: ds => term g d :: terms g ds

end

end Deriv

/-! ## Splitting a size -/

/-- The first split of a size into parts for which there are derivations, one part for each
nonterminal, in lexicographic order. -/
def firstSplit (inhabited : Nat → Nat → Bool) : List Nat → Nat → Option (List Nat)
  | [], _ => none
  | [k], n => if inhabited k n then some [n] else none
  | k :: k' :: ks, n =>
    (List.range' 1 (n - (k' :: ks).length)).findSome? fun part =>
      if inhabited k part then
        (firstSplit inhabited (k' :: ks) (n - part)).map (part :: ·)
      else none

/-- The first split after the given parts, which need not have derivations themselves. -/
def nextSplit (inhabited : Nat → Nat → Bool) : List Nat → List Nat → Option (List Nat)
  | k :: ks, p :: ps =>
    match if inhabited k p then nextSplit inhabited ks ps else none with
    | some ps' => some (p :: ps')
    | none =>
      (List.range' (p + 1) (ps.sum - ks.length)).findSome? fun part =>
        if inhabited k part then
          (firstSplit inhabited ks (p + ps.sum - part)).map (part :: ·)
        else none
  | _, _ => none

/-! ## First derivations -/

/-- The first derivation of each size and nonterminal, for all sizes below some size. -/
structure Table where
  rows : Std.TreeMap Nat (Array (Thunk (Option Deriv)))

namespace Table

/-- No rows. -/
def empty : Table := ⟨∅⟩

/-- The first derivation of a nonterminal of the given size. -/
def first (T : Table) (nt size : Nat) : Option Deriv :=
  (T.rows[size]?.bind (·[nt]?)).bind Thunk.get

/-- Whether a nonterminal has a derivation of the given size. -/
def inhabited (T : Table) (nt size : Nat) : Bool := (T.first nt size).isSome

/-- The derivation by the given rule whose holes get the first derivations of the given parts. -/
def build (T : Table) (nt rule size : Nat) (kids parts : List Nat) : Option Deriv :=
  ((kids.zip parts).mapM fun (k, part) => T.first k part).map (.node nt rule size ·)

/-- The first derivation of a nonterminal by the given rule. -/
def firstBy (T : Table) (nt rule : Nat) (r : Rule) (size : Nat) : Option Deriv :=
  if r.children.isEmpty then
    if size = r.weight then some (.node nt rule size []) else none
  else if size < r.weight + r.children.length then none
  else
    (firstSplit T.inhabited r.children (size - r.weight)).bind (T.build nt rule size r.children ·)

/-- The first derivation of a nonterminal by one of its rules from number `rule` on. -/
def firstFrom (T : Table) (nt size : Nat) : (rule : Nat) → List Rule → Option Deriv
  | _, [] => none
  | rule, r :: rules =>
    match T.firstBy nt rule r size with
    | some d => some d
    | none => T.firstFrom nt size (rule + 1) rules

/-- Adds the row of the next size. -/
def grow (g : Grammar) (T : Table) : Table :=
  let size := T.rows.size
  let row := g.rules.zipIdx.map fun (rules, nt) => Thunk.mk fun _ => T.firstFrom nt size 0 rules
  ⟨T.rows.insert size row.toArray⟩

/-- Adds rows up to the given size. -/
def cover (g : Grammar) (T : Table) (size : Nat) : Table :=
  Nat.repeat (grow g) (size + 1 - T.rows.size) T

end Table

/-! ## The next derivation -/

mutual

/-- The derivation after the given one, of the same nonterminal and size. -/
def Deriv.next? (g : Grammar) (T : Table) : Deriv → Option Deriv
  | .node nt rule size children =>
    match Deriv.nextAll? g T children with
    | some children => some (.node nt rule size children)
    | none =>
      let rules := g.rulesOf nt
      let resplit :=
        rules[rule]?.bind fun r =>
          (nextSplit T.inhabited r.children (children.map Deriv.size)).bind
            (T.build nt rule size r.children ·)
      match resplit with
      | some d => some d
      | none => T.firstFrom nt size (rule + 1) (rules.drop (rule + 1))

/-- The derivations after the given ones: the rightmost that has a successor gives way to it, and
those to its right begin anew. -/
def Deriv.nextAll? (g : Grammar) (T : Table) : List Deriv → Option (List Deriv)
  | [] => none
  | d :: ds =>
    match Deriv.nextAll? g T ds with
    | some ds => some (d :: ds)
    | none =>
      match Deriv.next? g T d with
      | some d' => (ds.mapM fun c => T.first c.nt c.size).map (d' :: ·)
      | none => none

end

end InvariantSearch
