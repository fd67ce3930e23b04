import InvariantSearch.Enumeration.Derivation
import Std.Data.HashSet

/-!
# Enumerating the terms of a grammar

An enumerator visits the derivations of the start symbol by size and, within a size, in their order.
A grammar may derive a term in several ways; the term is produced at its smallest size alone, and
only once there. The terms produced at the current size are remembered for this, and forgotten when
a larger size begins.

`Enumerator.tick` visits one derivation, or finds a size to be empty. `Enumerator.next` ticks until
a term is produced or the terms are exhausted; where derivations of ever larger sizes yield only
terms produced before, that takes forever, so it is given a number of ticks.
-/

namespace InvariantSearch

/-- The progress of an enumeration. `limit` is the largest size to reach and `size` the size
reached; `current` is the derivation visited last, if the size is not yet finished. -/
structure Enumerator (g : Grammar) where
  limit : Option Nat
  table : Table
  size : Nat
  current : Option Deriv
  seen : Std.HashSet Term
  exhausted : Bool

/-- A point in the enumeration of a grammar. -/
structure Position (g : Grammar) where
  size : Nat
  current : Option Deriv
  seen : Std.HashSet Term

namespace Enumerator

variable {g : Grammar}

/-- The beginning of an enumeration up to the given size. The grammar's largest derivation limits it
as well. -/
def new (g : Grammar) (maxSize : Option Nat) : Enumerator g :=
  { limit := Option.merge min maxSize g.maxSize
    table := .empty
    size := 0
    current := none
    seen := ∅
    exhausted := false }

/-- Whether the enumeration does not reach the size. -/
def excludes (e : Enumerator g) (size : Nat) : Bool :=
  e.limit.any (· < size)

/-- Visits a derivation of the current size, which produces its term if that is new. -/
def visit (e : Enumerator g) (d : Deriv) : Option Term × Enumerator g :=
  let t := d.term g
  if (g.minSize Grammar.start t).any (· < d.size) || e.seen.contains t then
    (none, { e with current := some d })
  else (some t, { e with current := some d, seen := e.seen.insert t })

/-- Visits the next derivation of the current size or, if there is none, begins the next size with
its first derivation. Beyond the limit the enumeration is exhausted. -/
def tick (e : Enumerator g) : Option Term × Enumerator g :=
  if e.exhausted then (none, e)
  else
    match e.current.bind (·.next? g e.table) with
    | some d => e.visit d
    | none =>
      let size := e.size + 1
      if e.excludes size then (none, { e with size, current := none, exhausted := true })
      else
        let table := e.table.cover g size
        match table.first Grammar.start size with
        | none => (none, { e with size, table, current := none })
        | some d => { e with size, table, seen := ∅ }.visit d

/-- The next term, or none if the terms are exhausted, within the given number of ticks. -/
def next (ticks : Nat) (e : Enumerator g) : Option (Option Term × Enumerator g) :=
  match ticks with
  | 0 => none
  | ticks + 1 =>
    match e.tick with
    | (some t, e) => some (some t, e)
    | (none, e) => if e.exhausted then some (none, e) else e.next ticks

/-- The next terms, at most `n` of them, each within the given number of ticks. -/
def take (ticks : Nat) : (n : Nat) → Enumerator g → Option (List Term × Enumerator g)
  | 0, e => some ([], e)
  | n + 1, e => do
    match ← e.next ticks with
    | (none, e) => return ([], e)
    | (some t, e) =>
      let (ts, e) ← take ticks n e
      return (t :: ts, e)

/-- The point that the enumeration has reached. -/
def position (e : Enumerator g) : Position g := ⟨e.size, e.current, e.seen⟩

/-- Goes on from a point in the enumeration. -/
def resume (e : Enumerator g) (p : Position g) : Enumerator g :=
  { e with
    table := e.table.cover g p.size
    size := p.size
    current := p.current
    seen := p.seen
    exhausted := false }

end Enumerator

end InvariantSearch
