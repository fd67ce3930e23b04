import InvariantSearch.Sexp.Basic

/-!
# Printing s-expressions

A symbol is printed bare unless its text holds a blank, a double quote or a prime, which bars
enclose, or else a bar, which double quotes enclose. Inside a list one space separates two items,
and a comment stands on a line of its own, with no space beside it.

`Sexp.write` appends the written form to a text, so that a large tree is written in one pass;
`Sexp.render_list` and the theorems about `Sexp.renderItems` give the written form from its parts.
-/

namespace InvariantSearch

/-- The written form of an atom. -/
def Atom.render : Atom → String
  | .numeral n => toString n.toNat
  | .symbol s =>
    if s.toList.any fun c => c = ' ' || c = '"' || c = '\'' then "|" ++ s ++ "|"
    else if s.toList.any (· = '|') then "\"" ++ s ++ "\""
    else s

namespace Sexp

/-- What separates an item from the items after it. -/
def separator : List Sexp → String
  | [] => ""
  | x :: _ => if x.isComment then "" else " "

mutual

/-- Appends the written form of a tree. -/
def write (out : String) : Sexp → String
  | .atom a => out ++ a.render
  | .comment s => out ++ ";" ++ s
  | .list xs => writeItems (out ++ "(") xs ++ ")"

/-- Appends the written form of the items of a list. -/
def writeItems (out : String) : List Sexp → String
  | [] => out
  | .comment s :: xs => writeItems (out ++ "\n;" ++ s ++ "\n") xs
  | x :: xs => writeItems (write out x ++ separator xs) xs

end

/-- The written form of a tree. -/
def render (e : Sexp) : String := write "" e

/-- The written form of the items of a list. -/
def renderItems (xs : List Sexp) : String := writeItems "" xs

mutual

theorem write_eq (out : String) : (e : Sexp) → write out e = out ++ e.render
  | .atom a => by simp [write, render]
  | .comment s => by simp [write, render, String.append_assoc]
  | .list xs => by
    simp only [write, render]
    rw [writeItems_eq (out ++ "(") xs, writeItems_eq ("" ++ "(") xs]
    simp [String.append_assoc]

theorem writeItems_eq (out : String) : (xs : List Sexp) → writeItems out xs = out ++ renderItems xs
  | [] => by simp [writeItems, renderItems]
  | x :: xs => by
    cases x with
    | comment s =>
      simp only [writeItems, renderItems]
      rw [writeItems_eq (out ++ "\n;" ++ s ++ "\n") xs, writeItems_eq ("" ++ "\n;" ++ s ++ "\n") xs]
      simp [String.append_assoc]
    | atom a =>
      simp only [writeItems, renderItems]
      rw [writeItems_eq (write out (.atom a) ++ separator xs) xs, write_eq out (.atom a),
        writeItems_eq (write "" (.atom a) ++ separator xs) xs, write_eq "" (.atom a)]
      simp [String.append_assoc]
    | list ys =>
      simp only [writeItems, renderItems]
      rw [writeItems_eq (write out (.list ys) ++ separator xs) xs, write_eq out (.list ys),
        writeItems_eq (write "" (.list ys) ++ separator xs) xs, write_eq "" (.list ys)]
      simp [String.append_assoc]

end

theorem render_atom (a : Atom) : render (.atom a) = a.render := by simp [render, write]

theorem render_comment (s : String) : render (.comment s) = ";" ++ s := by simp [render, write]

theorem render_list (xs : List Sexp) : render (.list xs) = "(" ++ renderItems xs ++ ")" := by
  rw [render, write, writeItems_eq]
  simp

theorem renderItems_nil : renderItems [] = "" := by simp [renderItems, writeItems]

theorem renderItems_comment (s : String) (xs : List Sexp) :
    renderItems (.comment s :: xs) = "\n;" ++ s ++ "\n" ++ renderItems xs := by
  rw [renderItems, writeItems, writeItems_eq]
  simp

theorem renderItems_cons (x : Sexp) (xs : List Sexp) (h : x.isComment = false) :
    renderItems (x :: xs) = x.render ++ separator xs ++ renderItems xs := by
  cases x with
  | comment s => cases h
  | _ => rw [renderItems, writeItems, writeItems_eq, write_eq] <;> simp

end Sexp

end InvariantSearch
