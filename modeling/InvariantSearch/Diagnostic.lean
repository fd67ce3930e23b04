import InvariantSearch.Text
import InvariantSearch.Text.Blank
import InvariantSearch.Text.Lines
import InvariantSearch.Text.Width

/-!
# Diagnostics

A diagnostic is a message about a part of a text. `Diagnostic.render` shows the message, the place,
and the lines that the part touches. A part inside one line is underlined:

    error: unsupported command frob
      ┌─ input.sl:2:1
      │
    2 │ (frob)
      │ ^^^^^^

A part that touches several lines is marked by a bracket on the left (`Mark`). Of more than nine
lines only the first four and the last four are shown.

Colors are switched on and off by a `Palette`. With `Palette.plain` all control sequences are empty.
-/

namespace InvariantSearch

/-- A message about a part of a text. -/
structure Diagnostic where
  message : String
  span : Span
  deriving DecidableEq

/-- The control sequences that switch colors. -/
structure Palette where
  /-- For the word before the message. -/
  header : String
  /-- For the message. -/
  title : String
  /-- For line numbers and borders. -/
  margin : String
  /-- For the marked part and its marks. -/
  label : String
  /-- Ends each of the others. -/
  reset : String
  deriving DecidableEq

namespace Palette

/-- No colors. -/
def plain : Palette := ⟨"", "", "", "", ""⟩

/-- The colors of a terminal that understands ANSI control sequences. -/
def ansi : Palette where
  header := "\x1b[0m\x1b[1m\x1b[38;5;9m"
  title := "\x1b[0m\x1b[1m"
  margin := "\x1b[0m\x1b[34m"
  label := "\x1b[0m\x1b[31m"
  reset := "\x1b[0m"

/-- A text in the color of a line number or a border. -/
def paintMargin (p : Palette) (text : String) : String := p.margin ++ text ++ p.reset

/-- A text in the color of the marked part. -/
def paintLabel (p : Palette) (text : String) : String := p.label ++ text ++ p.reset

end Palette

/-- A text, so many times over. -/
def repeatText (n : Nat) (text : String) : String := String.join (List.replicate n text)

/-- A text with spaces in front of it, up to the given length. -/
def padStart (n : Nat) (text : String) : String := repeatText (n - text.length) " " ++ text

/-! ## Layout of a line -/

/-- The distance of tab stops. -/
def tabWidth : Nat := 4

/-- A character as it is laid out in a line. -/
structure Cell where
  char : Char
  /-- Its byte offset in the line. -/
  start : Nat
  /-- How many columns it takes; a tab takes those up to the next tab stop. -/
  width : Nat
  deriving DecidableEq

namespace Cell

/-- The byte offset after the character. -/
def stop (c : Cell) : Nat := c.start + c.char.utf8Size

/-- The character as it is shown. -/
def text (c : Cell) : String :=
  if c.char = '\t' then repeatText c.width " " else String.singleton c.char

/-- Lays out the rest of a line that begins at a byte offset and a column. -/
def layout (start column : Nat) : List Char → List Cell
  | [] => []
  | c :: cs =>
    let width := if c = '\t' then tabWidth - column % tabWidth else charWidth c
    ⟨c, start, width⟩ :: layout (start + c.utf8Size) (column + width) cs

/-- The place after the end of a line of the given length, where a mark can stand as well. -/
def afterEnd (length : Nat) : Cell := ⟨'\x00', length, 1⟩

/-- The columns of cells, each filled with the given text. -/
def fill (text : String) (cells : List Cell) : String :=
  String.join (cells.map fun c => repeatText c.width text)

end Cell

/-- The characters of a line without those at its end that are not shown. -/
def shownChars (cs : List Char) : List Char :=
  (cs.reverse.dropWhile fun c => c = '\n' || c = '\r' || c = '\x00').reverse

/-! ## Marks -/

/-- What a line has of the marked part of a text. Offsets are in bytes from the line's beginning. -/
inductive Mark where
  /-- All of it. -/
  | whole (start stop : Nat)
  /-- Its first line. -/
  | first (start : Nat)
  /-- A line between the first and the last. -/
  | middle
  /-- Its last line. -/
  | last (stop : Nat)
  deriving DecidableEq

namespace Mark

/-- The mark of a line for a part that touches the lines from number `first` to number `last`. The
mark is never empty. -/
def ofLine (span : Span) (first last : Nat) (l : SourceLine) : Mark :=
  if first = last then
    let start := span.start - l.start
    .whole start (max (span.stop - l.start) (start + 1))
  else if l.number = first then .first (span.start - l.start)
  else if l.number = last then .last (span.stop - l.start)
  else .middle

/-- Whether a cell belongs to the marked part. -/
def covers (c : Cell) : Mark → Bool
  | .whole start stop => start < c.stop && c.start < stop
  | .first start => start ≤ c.start
  | .middle => true
  | .last stop => c.stop ≤ stop

/-- Whether the part begins in a line with nothing but white space before it. -/
def opensLine (line : List Char) : Mark → Bool
  | .first start => start ≤ byteLength (line.takeWhile isWhiteSpace)
  | _ => false

/-- What stands to the left of a line that has the mark. -/
def bracket (p : Palette) (line : List Char) (m : Mark) : String :=
  match m with
  | .whole .. => ""
  | .first _ => if m.opensLine line then " " ++ p.paintLabel "╭" else "  "
  | .middle | .last _ => " " ++ p.paintLabel "│"

/-- A line's text, with the marked part in its color. -/
def paint (p : Palette) (cells : List Cell) (m : Mark) : String :=
  let text (cells : List Cell) : String := String.join (cells.map Cell.text)
  let before := cells.takeWhile (!m.covers ·)
  let rest := cells.dropWhile (!m.covers ·)
  let marked := rest.takeWhile (m.covers ·)
  text before ++ (if marked.isEmpty then "" else p.paintLabel (text marked)) ++
    text (rest.dropWhile (m.covers ·))

/-- What is shown under a line, if anything is. -/
def underline? (p : Palette) (line : List Char) (m : Mark) : Option String :=
  let cells := Cell.layout 0 0 line
  let caret (corner : String) (cells : List Cell) : String :=
    " " ++ p.paintLabel corner ++ p.paintLabel (Cell.fill "─" cells ++ "^")
  match m with
  | .whole .. =>
    let cells := cells ++ [.afterEnd (byteLength line)]
    let rest := cells.dropWhile (!m.covers ·)
    let marked := rest.takeWhile (m.covers ·)
    some (" " ++ Cell.fill " " (cells.takeWhile (!m.covers ·)) ++
      (if marked.isEmpty then "" else p.paintLabel (Cell.fill "^" marked)))
  | .first start =>
    if m.opensLine line then none
    else some (caret "╭" (cells.takeWhile fun c => c.start < start + 1))
  | .middle => none
  | .last stop => some (caret "╰" (cells.takeWhile fun c => c.start < stop))

end Mark

/-! ## Rendering -/

namespace Diagnostic

/-- The margin of a line without a number; line numbers take `pad` columns. -/
def margin (p : Palette) (pad : Nat) (border : String) : String :=
  repeatText pad " " ++ " " ++ p.paintMargin border

/-- A line of the text with its mark. -/
def renderLine (p : Palette) (pad : Nat) (l : SourceLine) (m : Mark) : String :=
  let line := shownChars l.chars
  let underline :=
    match m.underline? p line with
    | some text => margin p pad "│" ++ text ++ "\n"
    | none => ""
  p.paintMargin (padStart pad (toString l.number)) ++ " " ++ p.paintMargin "│" ++
    m.bracket p line ++ " " ++ m.paint p (Cell.layout 0 0 line) ++ "\n" ++ underline

/-- Lines without those in the middle, if there are too many. -/
def abridge (gap : String) (lines : List String) : List String :=
  if lines.length ≤ 9 then lines
  else lines.take 4 ++ [gap] ++ lines.drop (lines.length - 4)

/-- Shows a diagnostic about a part of the source, which is a text of the given name. -/
def render (p : Palette) (name source : String) (d : Diagnostic) : String :=
  let location := Location.ofOffset source d.span.start
  let first := location.line
  let last := (Location.ofOffset source d.span.stop).line
  let pad := (toString last).length
  let lines := (SourceLine.ofText source).filter fun l => first ≤ l.number && l.number ≤ last
  let bracketSpace := if first = last then "" else "  "
  let gap := margin p pad "·" ++ Mark.middle.bracket p [] ++ "\n"
  p.header ++ "error" ++ p.title ++ ": " ++ d.message ++ p.reset ++ "\n" ++
    margin p pad "┌─" ++ " " ++ name ++ ":" ++ toString first ++ ":" ++
      toString location.column ++ "\n" ++
    margin p pad "│" ++ bracketSpace ++ "\n" ++
    String.join (abridge gap (lines.map fun l => renderLine p pad l (.ofLine d.span first last l)))
      ++ "\n"

end Diagnostic

end InvariantSearch
