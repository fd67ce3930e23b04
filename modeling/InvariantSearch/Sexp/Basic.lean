import InvariantSearch.Word

/-!
# S-expressions

One tree type serves for problem files, for the commands sent to a solver and for its answers.
Comments are part of the tree, since both files and answers hold them.

A signed integer is written as a numeral or as `(- n)`: `Sexp.ofInt` writes one and `Sexp.int?`
reads one, at any nesting of minus signs.
-/

namespace InvariantSearch

/-- A numeral of at most 64 bits, or a symbol with any text. -/
inductive Atom where
  | numeral (n : UInt64)
  | symbol (text : String)
  deriving DecidableEq

/-- A tree of atoms, comments and lists. -/
inductive Sexp where
  | atom (a : Atom)
  | comment (text : String)
  | list (items : List Sexp)

namespace Sexp

mutual

/-- Whether two trees are the same. -/
def same : Sexp → Sexp → Bool
  | .atom a, .atom b => a = b
  | .comment s, .comment t => s = t
  | .list xs, .list ys => sameList xs ys
  | _, _ => false

/-- Whether two lists of trees are the same. -/
def sameList : List Sexp → List Sexp → Bool
  | [], [] => true
  | x :: xs, y :: ys => same x y && sameList xs ys
  | _, _ => false

end

mutual

theorem same_iff : (x y : Sexp) → (same x y = true ↔ x = y)
  | .atom _, y | .comment _, y => by cases y <;> simp [same]
  | .list xs, y => by cases y <;> simp [same, sameList_iff xs]

theorem sameList_iff : (xs ys : List Sexp) → (sameList xs ys = true ↔ xs = ys)
  | [], ys => by cases ys <;> simp [sameList]
  | x :: xs, ys => by cases ys <;> simp [sameList, same_iff x, sameList_iff xs]

end

instance : DecidableEq Sexp := fun x y => decidable_of_iff (same x y) (same_iff x y)

/-- A symbol atom. -/
def symbol (text : String) : Sexp := .atom (.symbol text)

/-- A numeral atom. -/
def numeral (n : UInt64) : Sexp := .atom (.numeral n)

/-- The list `(head args…)`. -/
def app (head : String) (args : List Sexp) : Sexp := .list (symbol head :: args)

/-- A signed integer, negative ones as `(- n)`. -/
def ofInt (i : Int64) : Sexp :=
  let magnitude := numeral (UInt64.ofNat i.toInt.natAbs)
  if i < 0 then app "-" [magnitude] else magnitude

/-- The items of a list. -/
def items? : Sexp → Option (List Sexp)
  | .list xs => some xs
  | _ => none

/-- The text of a symbol atom. -/
def symbol? : Sexp → Option String
  | .atom (.symbol s) => some s
  | _ => none

/-- The value of a numeral atom. -/
def numeral? : Sexp → Option UInt64
  | .atom (.numeral n) => some n
  | _ => none

/-- The signed integer that the tree stands for: a numeral, or `(- e)` for such a tree `e`. -/
def int? : Sexp → Option Int64
  | .atom (.numeral n) => fitWord? n.toNat
  | .list [head, e] =>
    if head.symbol? = some "-" then e.int?.bind fun i => fitWord? (-i.toInt) else none
  | _ => none

/-- The Boolean that the symbols `true` and `false` stand for. -/
def bool? (e : Sexp) : Option Bool :=
  match e.symbol? with
  | some "true" => some true
  | some "false" => some false
  | _ => none

/-- The head and the arguments of a list that begins with a symbol. -/
def app? : Sexp → Option (String × List Sexp)
  | .list (.atom (.symbol head) :: args) => some (head, args)
  | _ => none

/-- Whether the tree is a comment. -/
def isComment : Sexp → Bool
  | .comment _ => true
  | _ => false

mutual

/-- The tree without the comments inside it, or nothing if it is a comment itself. -/
def withoutComments : Sexp → Option Sexp
  | .atom a => some (.atom a)
  | .comment _ => none
  | .list xs => some (.list (dropComments xs))

/-- The trees of a list that are not comments, each without the comments inside it. -/
def dropComments : List Sexp → List Sexp
  | [] => []
  | x :: xs => (withoutComments x).toList ++ dropComments xs

end

end Sexp

end InvariantSearch
