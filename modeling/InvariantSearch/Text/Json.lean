/-!
# JSON

Values of the JSON format, as far as reports need them, and their written form with an indentation
of two spaces.
-/

namespace InvariantSearch

/-- A JSON value. -/
inductive Json where
  | number (n : Nat)
  | text (s : String)
  | list (items : List Json)
  /-- Named values, in the order in which they are written. -/
  | object (fields : List (String × Json))

namespace Json

/-- The hexadecimal digit of a number below 16. -/
def hexDigit (n : Nat) : Char := Char.ofNat (if n < 10 then 48 + n else 87 + n)

/-- The characters that stand for one character in a string. -/
def escapeChar (c : Char) : List Char :=
  if c = '"' then ['\\', '"']
  else if c = '\\' then ['\\', '\\']
  else if c = '\n' then ['\\', 'n']
  else if c = '\r' then ['\\', 'r']
  else if c = '\t' then ['\\', 't']
  else if c = '\x08' then ['\\', 'b']
  else if c = '\x0c' then ['\\', 'f']
  else if c.toNat < 32 then
    ['\\', 'u', '0', '0', hexDigit (c.toNat / 16), hexDigit (c.toNat % 16)]
  else [c]

/-- A text as a JSON string. -/
def quote (s : String) : String :=
  "\"" ++ String.ofList (s.toList.flatMap escapeChar) ++ "\""

/-- A line break, and the indentation of the next line. -/
def newLine (depth : Nat) : String := "\n" ++ String.ofList (List.replicate (2 * depth) ' ')

/-- Items with brackets around them, each item on lines of its own. -/
def bracketed (opening closing : String) (depth : Nat) (items : List String) : String :=
  if items.isEmpty then opening ++ closing
  else
    let items := items.map (newLine (depth + 1) ++ ·)
    opening ++ String.intercalate "," items ++ newLine depth ++ closing

mutual

/-- The written form of a value inside so many brackets. -/
def renderAt (depth : Nat) : Json → String
  | .number n => toString n
  | .text s => quote s
  | .list items => bracketed "[" "]" depth (renderItems (depth + 1) items)
  | .object fields => bracketed "\x7b" "\x7d" depth (renderFields (depth + 1) fields)

/-- The written forms of values. -/
def renderItems (depth : Nat) : List Json → List String
  | [] => []
  | v :: vs => renderAt depth v :: renderItems depth vs

/-- The written forms of named values. -/
def renderFields (depth : Nat) : List (String × Json) → List String
  | [] => []
  | (name, v) :: fields => (quote name ++ ": " ++ renderAt depth v) :: renderFields depth fields

end

/-- The written form of a value. -/
def render (v : Json) : String := renderAt 0 v

end Json

end InvariantSearch
