/-!
# Lines

A text is cut into lines after each line feed. What follows the last line feed is a line as well,
even if it is empty, so that every text has a line and every byte offset belongs to one.
-/

namespace InvariantSearch

/-- Puts a character in front of the first of some lines. -/
def consLine (c : Char) : List (List Char) → List (List Char)
  | [] => [[c]]
  | l :: ls => (c :: l) :: ls

/-- The lines of a text, each with the line feed that ends it. -/
def splitLines : List Char → List (List Char)
  | [] => [[]]
  | c :: cs => if c = '\n' then [c] :: splitLines cs else consLine c (splitLines cs)

/-- How many bytes characters take in UTF-8. -/
def byteLength : List Char → Nat
  | [] => 0
  | c :: cs => c.utf8Size + byteLength cs

/-- A line with its place in a text. -/
structure SourceLine where
  /-- The number of the line, from 1. -/
  number : Nat
  /-- The byte offset at which it begins. -/
  start : Nat
  /-- Its characters, with the line feed that ends it. -/
  chars : List Char
  deriving DecidableEq

namespace SourceLine

/-- Gives lines their places, from the place of the first one on. -/
def locate (number start : Nat) : List (List Char) → List SourceLine
  | [] => []
  | l :: ls => ⟨number, start, l⟩ :: locate (number + 1) (start + byteLength l) ls

/-- The lines of a text. -/
def ofText (text : String) : List SourceLine := locate 1 0 (splitLines text.toList)

end SourceLine

end InvariantSearch
