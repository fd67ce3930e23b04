import InvariantSearch.Sexp.Basic
import InvariantSearch.Text

/-!
# Reading s-expressions

The reader takes one character at a time. Its state holds the token it is in the middle of
(`Mode`), the unfinished lists around that token, and the trees already complete. A bare symbol,
a numeral and a comment end where a character comes that cannot belong to them, and that character
then begins the next token, so no blank is needed between tokens.

The first character with no continuation ends the reading with a `SyntaxError`, which lists every
token that could have stood there. `Sexp.parse` reads exactly one tree, `Sexp.parseMany` any number
of them, and `Sexp.parseSpanned` gives each with the bytes it was read from.
-/

namespace InvariantSearch

/-- A token that the reader could have gone on with. -/
inductive Expected where
  | openParen
  | closeParen
  | semicolon
  | bar
  | doubleQuote
  | digit
  | blank
  | notDoubleQuote
  | notBar
  | notNewline
  | newline
  | endOfInput
  | atom
  | numeral
  deriving DecidableEq

/-- The name of a token in messages. -/
def Expected.text : Expected → String
  | .openParen => "\"(\""
  | .closeParen => "\")\""
  | .semicolon => "\";\""
  | .bar => "\"|\""
  | .doubleQuote => "\"\\\"\""
  | .digit => "['0'..='9']"
  | .blank => "[' ' | '\\t' | '\\n' | '\\r']"
  | .notDoubleQuote => "[^'\"']"
  | .notBar => "[^'|']"
  | .notNewline => "[^'\\n']"
  | .newline => "\"\\n\""
  | .endOfInput => "EOF"
  | .atom => "atom"
  | .numeral => "numeral that fits in 64 bits"

/-- The byte offset where reading stopped, and the tokens that could have stood there. -/
structure SyntaxError where
  offset : Nat
  expected : List Expected
  deriving DecidableEq

/-- The tokens that were expected, each once and in the order of their names. -/
def SyntaxError.message (e : SyntaxError) : String :=
  match (e.expected.map Expected.text).eraseDups.mergeSort (· ≤ ·) with
  | [] => ""
  | [x] => x
  | xs => "one of " ++ String.intercalate ", " xs

namespace Sexp

/-- Space, tabulator, line feed and carriage return separate tokens. -/
def isBlank (c : Char) : Bool :=
  c = ' ' || c = '\t' || c = '\n' || c = '\r'

/-- The characters that a bare symbol can begin with. -/
def isSymbolStart (c : Char) : Bool :=
  c.isAlpha || "_'<>:=$@+-*~^&/?.".toList.contains c

/-- The characters that a bare symbol can go on with. -/
def isSymbolChar (c : Char) : Bool :=
  isSymbolStart c || c.isDigit || c = '!' || c = '#' || c = '%'

namespace Reader

/-- The mark around a quoted symbol. -/
inductive Quote where
  | double
  | bar
  deriving DecidableEq

/-- The character of a mark. -/
def Quote.char : Quote → Char
  | .double => '"'
  | .bar => '|'

/-- What can follow inside a quoted symbol. -/
def Quote.expected : Quote → List Expected
  | .double => [.notDoubleQuote, .doubleQuote]
  | .bar => [.notBar, .bar]

/-- The token that the reader is in the middle of; texts are held in reverse. -/
inductive Mode where
  | between
  | symbol (text : List Char)
  | numeral (value : Nat)
  | quoted (mark : Quote) (text : List Char)
  | comment (text : List Char)

/-- The tokens that would have prolonged the current one. -/
def Mode.expected : Mode → List Expected
  | .between | .symbol _ => []
  | .numeral _ => [.digit]
  | .quoted mark _ => mark.expected
  | .comment _ => [.notNewline, .newline]

/-- What a reader has read so far. Lists are held in reverse: `enclosing` has the items of each
unfinished list, the innermost list first, and `done` the finished trees with their bytes. `start`
is the offset of the unfinished tree, if any. -/
structure State where
  pos : Nat
  mode : Mode
  start : Nat
  enclosing : List (List Sexp)
  done : List (Span × Sexp)

/-- Nothing read yet. -/
def State.initial : State := ⟨0, .between, 0, [], []⟩

namespace State

/-- Whether one tree is all that is asked for, and is there. -/
def isFull (single : Bool) (s : State) : Bool :=
  single && s.enclosing.isEmpty && !s.done.isEmpty

/-- What can follow between two tokens. -/
def expected (single : Bool) (s : State) : List Expected :=
  let starts := [.atom, .digit, .bar, .doubleQuote, .semicolon, .openParen]
  .blank ::
    if s.isFull single then [.endOfInput]
    else if !s.enclosing.isEmpty then .closeParen :: starts
    else if single then starts
    else .endOfInput :: starts

/-- Adds a tree that ends at the offset `stop`. -/
def push (s : State) (e : Sexp) (stop : Nat) : State :=
  match s.enclosing with
  | [] => { s with mode := .between, done := (⟨s.start, stop⟩, e) :: s.done }
  | items :: outer => { s with mode := .between, enclosing := (e :: items) :: outer }

/-- Begins a tree at the current offset. -/
def begin (s : State) (mode : Mode) : State :=
  { s with mode, start := if s.enclosing.isEmpty then s.pos else s.start }

/-- Ends the current token before the current offset. -/
def settle (s : State) : Except SyntaxError State :=
  match s.mode with
  | .between => .ok s
  | .symbol text => .ok (s.push (.symbol (String.ofList text.reverse)) s.pos)
  | .numeral value =>
    if value < UInt64.size then .ok (s.push (.numeral (UInt64.ofNat value)) s.pos)
    else .error ⟨s.pos, [.digit, .numeral]⟩
  | .quoted mark _ => .error ⟨s.pos, mark.expected⟩
  | .comment text => .ok (s.push (.comment (String.ofList text.reverse)) s.pos)

/-- Begins the token of a character that stands after a complete token or a blank. The list `also`
holds the tokens that could have prolonged what stands before. -/
def dispatch (single : Bool) (also : List Expected) (s : State) (c : Char) :
    Except SyntaxError State :=
  if isBlank c then .ok s
  else if s.isFull single then .error ⟨s.pos, also ++ s.expected single⟩
  else if c = '"' then .ok (s.begin (.quoted .double []))
  else if c = '|' then .ok (s.begin (.quoted .bar []))
  else if c = ';' then .ok (s.begin (.comment []))
  else if c = '(' then
    let s := s.begin .between
    .ok { s with enclosing := [] :: s.enclosing }
  else if c = ')' then
    match s.enclosing with
    | [] => .error ⟨s.pos, also ++ s.expected single⟩
    | items :: outer =>
      .ok ({ s with enclosing := outer }.push (.list items.reverse) (s.pos + c.utf8Size))
  else if c.isDigit then .ok (s.begin (.numeral (c.toNat - '0'.toNat)))
  else if isSymbolStart c then .ok (s.begin (.symbol [c]))
  else .error ⟨s.pos, also ++ s.expected single⟩

/-- Takes the character at the current offset, without moving the offset. -/
def take (single : Bool) (s : State) (c : Char) : Except SyntaxError State :=
  match s.mode with
  | .quoted mark text =>
    if c = mark.char then
      .ok (s.push (.symbol (String.ofList text.reverse)) (s.pos + c.utf8Size))
    else .ok { s with mode := .quoted mark (c :: text) }
  | .comment text =>
    if c = '\n' then .ok (s.push (.comment (String.ofList text.reverse)) (s.pos + c.utf8Size))
    else .ok { s with mode := .comment (c :: text) }
  | .symbol text =>
    if isSymbolChar c then .ok { s with mode := .symbol (c :: text) }
    else s.settle.bind (dispatch single s.mode.expected · c)
  | .numeral value =>
    if c.isDigit then .ok { s with mode := .numeral (10 * value + (c.toNat - '0'.toNat)) }
    else s.settle.bind (dispatch single s.mode.expected · c)
  | .between => s.dispatch single [] c

/-- Takes one character. -/
def step (single : Bool) (s : State) (c : Char) : Except SyntaxError State :=
  (s.take single c).map fun t => { t with pos := s.pos + c.utf8Size }

/-- Takes characters in order. -/
def run (single : Bool) (s : State) : List Char → Except SyntaxError State
  | [] => .ok s
  | c :: cs => (s.step single c).bind fun t => t.run single cs

/-- The trees read, if the text can end here. -/
def finish (single : Bool) (s : State) : Except SyntaxError (List (Span × Sexp)) :=
  s.settle.bind fun t =>
    if t.enclosing.isEmpty && (!single || !t.done.isEmpty) then .ok t.done.reverse
    else .error ⟨t.pos, s.mode.expected ++ t.expected single⟩

end State

/-- Reads a whole text. -/
def read (single : Bool) (text : String) : Except SyntaxError (List (Span × Sexp)) :=
  (State.initial.run single text.toList).bind (State.finish single)

end Reader

/-- Reads a sequence of trees, each with the bytes it was read from. -/
def parseSpanned (text : String) : Except SyntaxError (List (Span × Sexp)) :=
  Reader.read false text

/-- Reads a sequence of trees: the trees of `parseSpanned` without their places. So it is the
definition, and no property of the reader, that the two read the same trees. -/
def parseMany (text : String) : Except SyntaxError (List Sexp) :=
  (parseSpanned text).map fun es => es.map (·.2)

/-- Reads exactly one tree; blanks may stand around it. -/
def parse (text : String) : Except SyntaxError Sexp :=
  (Reader.read true text).bind fun es =>
    match es with
    | (_, e) :: _ => .ok e
    | [] => .error ⟨text.utf8ByteSize, Reader.State.initial.expected true⟩

end Sexp

end InvariantSearch
