import InvariantSearch.Sexp.Reader
import InvariantSearch.Text.Blank

/-!
# Replies of a solver

A solver writes text, and nothing in it says where a reply ends. So after every command that has a
reply the solver is told to write a marker, and the reply is all the lines before the first line
that is the marker (`Reply.split`). Some solvers put the marker in double quotes. White space at the
end of a line or of a reply does not count.
-/

namespace InvariantSearch

namespace Reply

/-- The text that ends a reply. -/
def marker : String := "<<DONE>>"

/-- The marker in double quotes. -/
def quotedMarker : String := "\"" ++ marker ++ "\""

/-- Whether a line is the marker. -/
def isMarker (line : List Char) : Bool :=
  trimEnd line = marker.toList || trimEnd line = quotedMarker.toList

/-- Looks for the first marker line: `before` holds the lines before the current one and `line` the
current one as far as it is read, both in reverse. -/
def scan (before line : List Char) : List Char → Option (List Char × List Char)
  | [] => if isMarker line.reverse then some (trimEnd before.reverse, []) else none
  | c :: cs =>
    if c = '\n' then
      if isMarker line.reverse then some (trimEnd before.reverse, cs)
      else scan (c :: (line ++ before)) [] cs
    else scan before (c :: line) cs

/-- Splits output into the first reply and what follows its marker line, if there is one. -/
def split (output : List Char) : Option (List Char × List Char) := scan [] [] output

/-- The message of an s-expression `(error message)`. -/
def errorMessage? (e : Sexp) : Option String :=
  match e.app? with
  | some ("error", [message]) => message.symbol?
  | _ => none

/-- What a reply says went wrong: the message of its first `(error message)`, or the whole reply if
it has none. -/
def errorText (reply : String) : String :=
  match Sexp.parseMany reply with
  | .ok es => (es.findSome? errorMessage?).getD reply
  | .error _ => reply

end Reply

end InvariantSearch
