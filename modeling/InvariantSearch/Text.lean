/-!
# Places in a text

A place in a text is a byte offset into its UTF-8 form. `Span` is a range of such offsets, and
`Location.ofOffset` turns an offset into a line and a column for a reader.
-/

namespace InvariantSearch

/-- The bytes from `start` up to and not including `stop`. -/
structure Span where
  start : Nat
  stop : Nat
  deriving DecidableEq

/-- A line and a column, both from 1; a column counts characters. -/
structure Location where
  line : Nat
  column : Nat
  deriving DecidableEq

namespace Location

/-- The place after a character. -/
def next (l : Location) (c : Char) : Location :=
  if c = '\n' then ⟨l.line + 1, 1⟩ else ⟨l.line, l.column + 1⟩

/-- The place reached from `l` by the characters that begin before the offset. -/
def advance : Location → List Char → Nat → Location
  | l, [], _ => l
  | l, c :: cs, offset => if offset = 0 then l else advance (l.next c) cs (offset - c.utf8Size)

/-- The place of a byte offset. -/
def ofOffset (text : String) (offset : Nat) : Location :=
  advance ⟨1, 1⟩ text.toList offset

end Location

end InvariantSearch
