import InvariantSearch.Text.Blank

/-!
# Durations

A duration is written as numbers with units, such as `2m 30s` or `1h15min`, or as the single
character `0`. A number may have a decimal fraction, as in `1.5h`, where that comes to a whole
number of seconds, or of nanoseconds for the units up to a minute. White space may stand before
every number, between and after its digits, and after every unit. Seconds are kept in 64 bits, and a
duration in which any number gets larger than that is refused.
-/

namespace InvariantSearch

/-- A length of time. -/
structure Duration where
  seconds : Nat
  nanoseconds : Nat
  deriving DecidableEq

namespace Duration

/-- The number, if it fits into 64 bits. -/
def fit? (n : Nat) : Option Nat := if n < UInt64.size then some n else none

/-- A quantity as it is written: a whole number, and the digits after the decimal point as a
fraction, with ten to the number of digits as its denominator. -/
structure Quantity where
  whole : Nat
  fraction : Option (Nat × Nat) := none

/-- The units of time. -/
inductive TimeUnit where
  | nanosecond | microsecond | millisecond | second | minute | hour | day | week | month | year

namespace TimeUnit

/-- The unit of this name. -/
def ofName? (name : String) : Option TimeUnit :=
  if ["nanos", "nsec", "ns"].contains name then some nanosecond
  else if ["usec", "us", "µs"].contains name then some microsecond
  else if ["millis", "msec", "ms"].contains name then some millisecond
  else if ["seconds", "second", "secs", "sec", "s"].contains name then some second
  else if ["minutes", "minute", "min", "mins", "m"].contains name then some minute
  else if ["hours", "hour", "hr", "hrs", "h"].contains name then some hour
  else if ["days", "day", "d"].contains name then some day
  else if ["weeks", "week", "wk", "wks", "w"].contains name then some week
  else if ["months", "month", "M"].contains name then some month
  else if ["years", "year", "yr", "yrs", "y"].contains name then some year
  else none

/-- One unit as a number of nanoseconds, for a unit below a second. -/
def inNanoseconds? : TimeUnit → Option Nat
  | nanosecond => some 1
  | microsecond => some 1000
  | millisecond => some 1000000
  | _ => none

/-- One unit as a number of seconds, for a second and longer; a month is a twelfth of a year, and a
year has 365 days and a quarter. -/
def inSeconds : TimeUnit → Nat
  | minute => 60
  | hour => 3600
  | day => 86400
  | week => 604800
  | month => 2630016
  | year => 31557600
  | _ => 1

/-- So many whole units. -/
def whole? (u : TimeUnit) (n : Nat) : Option Duration :=
  match u.inNanoseconds? with
  | some k => (fit? (n * k)).map (⟨0, ·⟩)
  | none => (fit? (n * u.inSeconds)).map (⟨·, 0⟩)

/-- The fraction `n / d` of so much, if that is a whole number. -/
def share? (k n d : Nat) : Option Nat := do
  let product ← fit? (n * k)
  if product % d = 0 then some (product / d) else none

/-- The fraction `n / d` of a unit. A nanosecond has no fractions, and a fraction of an hour or of
a longer unit must come to whole seconds. -/
def part? (u : TimeUnit) (n d : Nat) : Option Duration :=
  match u with
  | nanosecond => none
  | microsecond => (share? 1000 n d).map (⟨0, ·⟩)
  | millisecond => (share? 1000000 n d).map (⟨0, ·⟩)
  | second => (share? 1000000000 n d).map (⟨0, ·⟩)
  | minute => (share? 60000000000 n d).map (⟨0, ·⟩)
  | _ => (share? u.inSeconds n d).map (⟨·, 0⟩)

end TimeUnit

/-- The sum of two durations, with the nanoseconds below a second. -/
def add? (d e : Duration) : Option Duration := do
  let nanoseconds ← fit? (d.nanoseconds + e.nanoseconds)
  let carried ← fit? (e.seconds + nanoseconds / 1000000000)
  let seconds ← fit? (d.seconds + carried)
  return ⟨seconds, nanoseconds % 1000000000⟩

/-- Adds a quantity in a unit to a duration: first its whole part, then its fraction. -/
def addQuantity? (d : Duration) (q : Quantity) (u : TimeUnit) : Option Duration := do
  let d ← d.add? (← u.whole? q.whole)
  match q.fraction with
  | none => return d
  | some (n, k) => d.add? (← u.part? n k)

/-- How far a duration has been read. -/
inductive ReadState where
  /-- A number may begin. -/
  | between
  /-- In a number, before a decimal point. -/
  | number (n : Nat)
  /-- In a number, after the decimal point, with what the digits up to here are a fraction of. -/
  | fraction (n : Nat) (numerator denominator : Nat)
  /-- In a unit, of which these letters were read, the latest first. -/
  | unit (q : Quantity) (letters : List Char)

/-- Whether a character can stand in the name of a unit. -/
def isUnitLetter (c : Char) : Bool := c.isAlpha || c == 'µ'

/-- The value of a decimal digit. -/
def digitValue (c : Char) : Nat := c.toNat - 48

/-- Adds so many units, with the letters of the unit's name backwards, to what was read before. -/
def addUnit? (total : Option Duration) (q : Quantity) (letters : List Char) : Option Duration := do
  (total.getD ⟨0, 0⟩).addQuantity? q (← TimeUnit.ofName? (String.ofList letters.reverse))

/-- Reads the rest of a duration, of which `total` was read before. -/
def read (total : Option Duration) : ReadState → List Char → Option Duration
  | .between, [] => total
  | .number .., [] => none
  | .fraction .., [] => none
  | .unit q letters, [] => addUnit? total q letters
  | .between, c :: cs =>
    if c.isDigit then read total (.number (digitValue c)) cs
    else if isWhiteSpace c then read total .between cs
    else none
  | .number n, c :: cs =>
    if c.isDigit then do read total (.number (← fit? (n * 10 + digitValue c))) cs
    else if isWhiteSpace c then read total (.number n) cs
    else if isUnitLetter c then read total (.unit ⟨n, none⟩ [c]) cs
    else if c == '.' then read total (.fraction n 0 1) cs
    else none
  | .fraction n a b, c :: cs =>
    if c.isDigit then do
      let b ← fit? (b * 10)
      let a ← fit? (a * 10 + digitValue c)
      read total (.fraction n a b) cs
    else if isWhiteSpace c then read total (.fraction n a b) cs
    else if isUnitLetter c && b != 1 then read total (.unit ⟨n, some (a, b)⟩ [c]) cs
    else none
  | .unit q letters, c :: cs =>
    if c.isDigit then do read (some (← addUnit? total q letters)) (.number (digitValue c)) cs
    else if isWhiteSpace c then do read (some (← addUnit? total q letters)) .between cs
    else if isUnitLetter c then read total (.unit q (c :: letters)) cs
    else none

/-- The duration that a text stands for. -/
def parse? (text : String) : Option Duration :=
  if text == "0" then some ⟨0, 0⟩ else read none .between text.toList

/-- The whole milliseconds of a duration, at most as many as fit into 64 bits. -/
def milliseconds (d : Duration) : Nat :=
  min (d.seconds * 1000 + d.nanoseconds / 1000000) (UInt64.size - 1)

end Duration

end InvariantSearch
