import InvariantSearch.Sexp.Printer

/-!
# Transcripts

A transcript keeps everything that a solver was told, so that it can be saved and replayed. Every
entry stands on lines of its own.
-/

namespace InvariantSearch

/-- What a solver was told, in order. -/
abbrev Transcript := List Sexp

namespace Transcript

/-- The written form of an entry: a comment stands after `;;`, and an empty one is an empty line. -/
def renderEntry : Sexp → String
  | .comment text => if text.isEmpty then "" else ";; " ++ text
  | e => e.render

/-- The text of a saved transcript. -/
def render (t : Transcript) : String :=
  String.intercalate "\n" (t.map renderEntry) ++ "\n"

end Transcript

end InvariantSearch
