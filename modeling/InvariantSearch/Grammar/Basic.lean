import InvariantSearch.Grammar.Template
import InvariantSearch.Logic
import Std.Data.TreeMap

/-!
# Grammars

A grammar describes the candidates of a search. It is a list of sorted nonterminals, the first of
which is the start symbol, each with its productions in order. A production is a template whose
holes are the names of nonterminals; `Rule` adds to it the nonterminals of its holes and the number
of nodes that it contributes to a term.

`Grammar.standard` is the grammar of a predicate for which none is given.
-/

namespace InvariantSearch

/-- A nonterminal with the sort of its terms. -/
structure Nonterminal where
  name : String
  ty : Ty
  deriving DecidableEq

namespace Nonterminal

/-- The number of the first nonterminal of a name. -/
def index (nts : List Nonterminal) (name : String) : Option Nat :=
  nts.findIdx? (·.name = name)

/-- The numbers of nonterminals by their names, counted from `first`. -/
def numbering (first : Nat) : List Nonterminal → Std.TreeMap String Nat
  | [] => ∅
  | n :: nts => (numbering (first + 1) nts).insert n.name first

theorem numbering_getElem? (first : Nat) (nts : List Nonterminal) (name : String) :
    (numbering first nts)[name]? = (index nts name).map (first + ·) := by
  induction nts generalizing first with
  | nil => simp [numbering, index]
  | cons n nts ih =>
    rw [numbering, Std.TreeMap.getElem?_insert, ih, index, index, List.findIdx?_cons]
    by_cases h : n.name = name
    · simp [h]
    · simp only [Std.LawfulEqCmp.compare_eq_iff_eq, h, decide_false, Bool.false_eq_true, if_false,
        Option.map_map]
      congr 1
      funext i
      simp +arith

end Nonterminal

/-- A production. `children` are the nonterminals of its holes, left to right, and `weight` is the
number of its nodes that are not holes, but at least one: so every step of a derivation adds to the
size of the derivation, also one by a template that is a bare hole. -/
structure Rule where
  template : Term
  children : List Nat
  weight : Nat
  deriving DecidableEq

/-- The rule of a template. -/
def Rule.ofTemplate (index : String → Option Nat) (t : Term) : Rule :=
  let children := t.holes index
  ⟨t, children, max 1 (t.size - children.length)⟩

/-- The nonterminal that a rule's template is, if it is a bare hole. -/
def Rule.bare? (r : Rule) : Option Nat :=
  match r.template, r.children with
  | .id _, [c] => some c
  | _, _ => none

/-- Nonterminals and their productions. `index` tells which names are nonterminals, and `rules` are
the productions read as rules. -/
structure Grammar where
  nonterminals : List Nonterminal
  productions : List (List Term)
  index : String → Option Nat
  index_eq : index = Nonterminal.index nonterminals
  rules : List (List Rule)
  rules_eq : rules = productions.map (·.map (Rule.ofTemplate index))

namespace Grammar

/-- The grammar of nonterminals and their productions. The nonterminals are numbered once for all
names that are looked up. -/
def ofProductions (nonterminals : List Nonterminal) (productions : List (List Term)) : Grammar :=
  let numbers := Nonterminal.numbering 0 nonterminals
  { nonterminals
    productions
    index := (numbers[·]?)
    index_eq := funext fun name => by simp [numbers, Nonterminal.numbering_getElem?]
    rules := _
    rules_eq := rfl }

/-- The number of the start symbol. -/
def start : Nat := 0

/-- The rules of a nonterminal, in order. -/
def rulesOf (g : Grammar) (nt : Nat) : List Rule := (g.rules[nt]?).getD []

/-- A rule's template with terms in its holes. -/
def instantiate (g : Grammar) (r : Rule) (ts : List Term) : Term :=
  (r.template.fill g.index ts).1

/-- The name with as many exclamation marks as keep it apart from the names taken, up to `n`. -/
def freshName (taken : List String) : (n : Nat) → String → String
  | 0, name => name
  | n + 1, name => if name ∈ taken then freshName taken n (name ++ "!") else name

/-- The grammar of all predicates over the parameters that the logic allows. Formulas are the two
literals, the Boolean parameters, negations, conjunctions and disjunctions of two formulas, and
comparisons; integer terms are the integer parameters, 0, 1, the given constants, sums and
differences, and also products where the logic has them all. -/
def standard (params : List Binder) (logic : Logic) (constants : List Int64) : Grammar :=
  let taken := params.map (·.name)
  let start : Nonterminal := ⟨freshName taken taken.length "Start", .bool⟩
  let number : Nonterminal := ⟨freshName taken taken.length "StartInt", .int⟩
  let b : Term := .id start.name
  let i : Term := .id number.name
  let parameters (ty : Ty) : List Term :=
    (params.filter (·.ty = ty)).map fun p => .id p.name
  let formulas : List Term :=
    [.bool true, .bool false] ++ parameters .bool ++ [b.not, .nary .and [b, b], .nary .or [b, b]]
  if logic.hasInts then
    let comparisons : List Term :=
      [i.equals i, .compare .le i i, .compare .lt i i, .compare .ge i i]
    let literals := [0, 1] ++ (ascending constants).filter fun c => c ≠ 0 && c ≠ 1
    let products : List Term := if logic.isNonlinear then [.arith .mul i i] else []
    let numbers : List Term :=
      parameters .int ++ literals.map .int ++ [.arith .add i i, .arith .sub i i] ++ products
    ofProductions [start, number] [formulas ++ comparisons, numbers]
  else ofProductions [start] [formulas]

end Grammar

end InvariantSearch
