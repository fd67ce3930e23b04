import InvariantSearch.Enumeration.Enumerator
import InvariantSearch.Proofs.DerivationOrder
import InvariantSearch.Proofs.SmallestDerivation

/-!
# The enumeration of a grammar

An enumerator produces the terms that have a smallest derivation within its limit, each once, and
smaller ones before larger ones (`Enumerator.enumerates_exactly`).

`Enumerator.Visits` says what an enumerator has done within a size: it has visited the first
derivations of the size, and has produced all terms of smaller sizes and those of the derivations
visited. A tick visits one more derivation (`Visits.tick_of_cons`), or goes on to the next size, or
finds the next size beyond the limit (`Visits.tick_of_nil`). So after enough ticks any size is
reached (`Reached.exists_run`).
-/

namespace InvariantSearch

open Grammar

/-! ## Terms by their sizes -/

namespace Grammar

variable {g : Grammar} {size : Nat} {ds : List Deriv} {t : Term}

/-- The terms of some derivations that have the size as their smallest, each where it occurs
first. -/
def produced (g : Grammar) (size : Nat) (ds : List Deriv) : List Term :=
  ds.foldl (fun ts d =>
    if g.minSize start (d.term g) = some size ∧ d.term g ∉ ts then ts ++ [d.term g] else ts) []

@[simp] theorem produced_nil : g.produced size [] = [] :=
  rfl

theorem produced_concat (d : Deriv) : g.produced size (ds ++ [d]) =
    g.produced size ds ++
      if g.minSize start (d.term g) = some size ∧ d.term g ∉ g.produced size ds then [d.term g]
      else [] := by
  rw [produced, List.foldl_append, List.foldl_cons, List.foldl_nil, ← produced]
  split
  next => rfl
  next => rw [List.append_nil]

theorem mem_produced : t ∈ g.produced size ds ↔
    g.minSize start t = some size ∧ ∃ d ∈ ds, d.term g = t := by
  induction ds using List.reverseRecOn with
  | nil => simp
  | append_singleton ds d ih =>
    rw [produced_concat, List.mem_append, ih]
    constructor
    · rintro (⟨hs, d', hd', rfl⟩ | h)
      · exact ⟨hs, d', List.mem_append_left _ hd', rfl⟩
      · split at h
        next hd =>
          obtain rfl := List.mem_singleton.1 h
          exact ⟨hd.1, d, by simp, rfl⟩
        next => simp at h
    · rintro ⟨hs, d', hd', rfl⟩
      by_cases hmem : d'.term g ∈ g.produced size ds
      · exact .inl (ih.1 hmem)
      · rcases List.mem_append.1 hd' with hd' | hd'
        · exact .inl ⟨hs, d', hd', rfl⟩
        · obtain rfl := List.mem_singleton.1 hd'
          rw [if_pos ⟨hs, hmem⟩]
          exact .inr (List.mem_singleton.2 rfl)

theorem nodup_produced : (g.produced size ds).Nodup := by
  induction ds using List.reverseRecOn with
  | nil => exact List.nodup_nil
  | append_singleton ds d ih =>
    rw [produced_concat]
    split
    next h =>
      rw [List.nodup_append]
      refine ⟨ih, List.nodup_singleton _, fun t ht u hu => ?_⟩
      obtain rfl := List.mem_singleton.1 hu
      rintro rfl
      exact h.2 ht
    next => rwa [List.append_nil]

/-- What some derivations produce, more derivations produce as well. -/
theorem produced_append (ds ds' : List Deriv) :
    g.produced size ds <+: g.produced size (ds ++ ds') := by
  induction ds' using List.reverseRecOn with
  | nil => rw [List.append_nil]
  | append_singleton ds' d ih =>
    rw [← List.append_assoc, produced_concat]
    exact ih.trans (List.prefix_append _ _)

/-- The terms whose smallest derivation has the size. -/
def termsOf (g : Grammar) (size : Nat) : List Term := g.produced size (g.derivations start size)

theorem mem_termsOf : t ∈ g.termsOf size ↔ g.minSize start t = some size := by
  rw [termsOf, mem_produced]
  refine ⟨fun h => h.1, fun h => ⟨h, ?_⟩⟩
  obtain ⟨d, hd, hnt, hsize, hterm⟩ := (isLeast_minSize.1 h).1
  exact ⟨d, mem_derivations.2 ⟨hd, hnt, hsize⟩, hterm⟩

/-- The terms whose smallest derivations have sizes below `n`, by their sizes. -/
def termsBelow (g : Grammar) (n : Nat) : List Term := (List.range n).flatMap g.termsOf

theorem termsBelow_succ (n : Nat) : g.termsBelow (n + 1) = g.termsBelow n ++ g.termsOf n := by
  simp [termsBelow, List.range_succ]

theorem mem_termsBelow {n : Nat} : t ∈ g.termsBelow n ↔ ∃ s < n, g.minSize start t = some s := by
  simp [termsBelow, mem_termsOf]

theorem nodup_termsBelow (n : Nat) : (g.termsBelow n).Nodup := by
  induction n with
  | zero => exact List.nodup_nil
  | succ n ih =>
    rw [termsBelow_succ, List.nodup_append]
    refine ⟨ih, nodup_produced, fun t ht u hu => ?_⟩
    rintro rfl
    obtain ⟨s, hs, h⟩ := mem_termsBelow.1 ht
    rw [mem_termsOf.1 hu] at h
    have := Option.some.inj h
    omega

/-- Smaller terms come before larger ones. -/
theorem pairwise_termsBelow (n : Nat) : (g.termsBelow n).Pairwise fun t u =>
    ∀ s s', g.minSize start t = some s → g.minSize start u = some s' → s ≤ s' := by
  induction n with
  | zero => exact List.Pairwise.nil
  | succ n ih =>
    rw [termsBelow_succ, List.pairwise_append]
    refine ⟨ih, List.pairwise_of_forall_mem_list fun t ht u hu s s' hs hs' => ?_,
      fun t ht u hu s s' hs hs' => ?_⟩
    · rw [mem_termsOf.1 ht] at hs
      rw [mem_termsOf.1 hu] at hs'
      rw [← Option.some.inj hs, ← Option.some.inj hs']
    · obtain ⟨s₁, hlt, h⟩ := mem_termsBelow.1 ht
      rw [h] at hs
      rw [mem_termsOf.1 hu] at hs'
      rw [← Option.some.inj hs, ← Option.some.inj hs']
      exact Nat.le_of_lt hlt

end Grammar

namespace Enumerator

variable {g : Grammar} {e : Enumerator g} {visited remaining : List Deriv} {out : List Term}

/-! ## The cases of a tick -/

theorem tick_of_exhausted (h : e.exhausted = true) : e.tick = (none, e) := by
  rw [tick, if_pos h]

section Active

variable (active : e.exhausted = false)

include active

/-- The next derivation of the size is visited. -/
theorem tick_of_next {d : Deriv} (hnext : e.current.bind (·.next? g e.table) = some d) :
    e.tick = e.visit d := by
  rw [tick, if_neg (by simp [active]), hnext]

/-- After the last size within the limit the enumerator is exhausted. -/
theorem tick_of_excluded (hnext : e.current.bind (·.next? g e.table) = none)
    (hexcluded : e.excludes (e.size + 1) = true) :
    e.tick = (none, { e with size := e.size + 1, current := none, exhausted := true }) := by
  rw [tick, if_neg (by simp [active]), hnext]
  exact if_pos hexcluded

/-- A size without derivations is passed over. -/
theorem tick_of_first_none (hnext : e.current.bind (·.next? g e.table) = none)
    (hincluded : e.excludes (e.size + 1) = false)
    (hfirst : (e.table.cover g (e.size + 1)).first start (e.size + 1) = none) :
    e.tick = (none, { e with
      size := e.size + 1, table := e.table.cover g (e.size + 1), current := none }) := by
  rw [tick, if_neg (by simp [active]), hnext]
  simp only [hincluded, Bool.false_eq_true, if_false, hfirst]

/-- The first derivation of the next size is visited. -/
theorem tick_of_first {d : Deriv} (hnext : e.current.bind (·.next? g e.table) = none)
    (hincluded : e.excludes (e.size + 1) = false)
    (hfirst : (e.table.cover g (e.size + 1)).first start (e.size + 1) = some d) :
    e.tick = Enumerator.visit { e with
      size := e.size + 1, table := e.table.cover g (e.size + 1), seen := ∅ } d := by
  rw [tick, if_neg (by simp [active]), hnext]
  simp only [hincluded, Bool.false_eq_true, if_false, hfirst]

end Active

/-! ## What an enumerator has done -/

/-- The derivations and terms of the size reached that `visited` leaves, and the terms produced so
far. -/
structure Within (e : Enumerator g) (visited remaining : List Deriv) (out : List Term) : Prop where
  active : e.exhausted = false
  included : e.excludes e.size = false
  table : e.table.Sound g
  list : g.derivations start e.size = visited ++ remaining
  out_eq : out = g.termsBelow e.size ++ g.produced e.size visited

/-- The enumerator has visited the first derivations of the size reached. It has visited one if
there is one. -/
structure Visits (e : Enumerator g) (visited remaining : List Deriv) (out : List Term) : Prop
    extends e.Within visited remaining out where
  current : e.current = visited.getLast?
  rest : visited = [] → remaining = []
  rows : visited ≠ [] → e.size ≤ e.table.rows.size
  seen : visited ≠ [] → ∀ t, t ∈ e.seen ↔ t ∈ g.produced e.size visited

/-- The enumerator has produced all terms up to its limit. -/
structure Finished (e : Enumerator g) (out : List Term) : Prop where
  exhausted : e.exhausted = true
  excluded : e.excludes e.size = true
  included : ∀ size < e.size, e.excludes size = false
  out_eq : out = g.termsBelow e.size

theorem excludes_mono {m n : Nat} (h : e.excludes n = false) (hmn : m ≤ n) :
    e.excludes m = false := by
  unfold excludes at h ⊢
  cases hl : e.limit with
  | none => rfl
  | some limit =>
    simp only [hl, Option.any_some, decide_eq_false_iff_not] at h ⊢
    omega

theorem visits_new (g : Grammar) (maxSize : Option Nat) : (new g maxSize).Visits [] [] [] where
  active := rfl
  included := by
    unfold excludes new
    cases Option.merge min maxSize g.maxSize <;> rfl
  table := Table.sound_empty
  list := derivations_zero
  out_eq := rfl
  current := rfl
  rest _ := rfl
  rows h := absurd rfl h
  seen h := absurd rfl h

/-- A visit produces the term of the derivation if it is new. -/
theorem Within.visit {d : Deriv} (h : e.Within visited (d :: remaining) out)
    (rows : e.size ≤ e.table.rows.size) (seen : ∀ t, t ∈ e.seen ↔ t ∈ g.produced e.size visited) :
    (e.visit d).2.Visits (visited ++ [d]) remaining (out ++ (e.visit d).1.toList) ∧
      (e.visit d).2.size = e.size ∧ (e.visit d).2.limit = e.limit := by
  have hd : d ∈ g.derivations start e.size := by
    rw [h.list]
    simp
  obtain ⟨hvalid, hnt, hsize⟩ := mem_derivations.1 hd
  obtain ⟨s, hle, hs⟩ := exists_minSize (t := d.term g) ⟨d, hvalid, hnt, hsize, rfl⟩
  have hlist : g.derivations start e.size = (visited ++ [d]) ++ remaining := by
    rw [h.list]
    simp
  have hskip :
      ((g.minSize start (d.term g)).any (· < d.size) || e.seen.contains (d.term g)) = true ↔
      ¬(g.minSize start (d.term g) = some e.size ∧ d.term g ∉ g.produced e.size visited) := by
    have hlt : s < e.size ↔ ¬s = e.size := by omega
    rw [Bool.or_eq_true, ← Std.HashSet.mem_iff_contains, seen, hs, hsize, Option.any_some,
      decide_eq_true_iff, Option.some.injEq, not_and_or, not_not, hlt]
  by_cases hnew : g.minSize start (d.term g) = some e.size ∧ d.term g ∉ g.produced e.size visited
  · have hvisit : e.visit d = (some (d.term g),
        { e with current := some d, seen := e.seen.insert (d.term g) }) :=
      if_neg (mt hskip.1 (not_not.2 hnew))
    rw [hvisit]
    refine ⟨⟨⟨h.active, h.included, h.table, hlist, ?_⟩, by simp, by simp, fun _ => rows,
      fun _ t => ?_⟩, rfl, rfl⟩
    · show out ++ [d.term g] = g.termsBelow e.size ++ g.produced e.size (visited ++ [d])
      rw [h.out_eq, produced_concat, if_pos hnew, List.append_assoc]
    · show t ∈ e.seen.insert (d.term g) ↔ t ∈ g.produced e.size (visited ++ [d])
      rw [Std.HashSet.mem_insert, seen, produced_concat, if_pos hnew, List.mem_append,
        List.mem_singleton, beq_iff_eq, eq_comm, or_comm]
  · have hvisit : e.visit d = (none, { e with current := some d }) := if_pos (hskip.2 hnew)
    have hproduced : g.produced e.size (visited ++ [d]) = g.produced e.size visited := by
      rw [produced_concat, if_neg hnew, List.append_nil]
    rw [hvisit]
    refine ⟨⟨⟨h.active, h.included, h.table, hlist, ?_⟩, by simp, by simp, fun _ => rows,
      fun _ t => ?_⟩, rfl, rfl⟩
    · show out ++ [] = g.termsBelow e.size ++ g.produced e.size (visited ++ [d])
      rw [hproduced, List.append_nil, h.out_eq]
    · show t ∈ e.seen ↔ t ∈ g.produced e.size (visited ++ [d])
      rw [hproduced, seen]

/-- A derivation that is left is visited next. -/
theorem Visits.tick_of_cons {d : Deriv} (h : e.Visits visited (d :: remaining) out) :
    e.tick.2.Visits (visited ++ [d]) remaining (out ++ e.tick.1.toList) ∧
      e.tick.2.size = e.size ∧ e.tick.2.limit = e.limit := by
  have hne : visited ≠ [] := fun hnil => List.cons_ne_nil _ _ (h.rest hnil)
  have hnext : e.current.bind (·.next? g e.table) = some d := by
    have hcurrent := h.current
    rw [List.getLast?_eq_getLast_of_ne_nil hne] at hcurrent
    have hlist := h.list
    rw [← List.dropLast_append_getLast hne, List.append_assoc] at hlist
    rw [hcurrent, Option.bind_some, next?_eq (h.table.below.mono (h.rows hne)) hlist]
    rfl
  rw [tick_of_next h.active hnext]
  exact h.toWithin.visit (h.rows hne) (h.seen hne)

/-- Once no derivation of a size is left, the next size follows, or the end. -/
theorem tick_of_next_none (active : e.exhausted = false) (table : e.table.Sound g)
    (hnext : e.current.bind (·.next? g e.table) = none) :
    e.excludes (e.size + 1) = true ∧ e.tick =
        (none, { e with size := e.size + 1, current := none, exhausted := true }) ∨
      ∃ visited remaining, e.tick.2.Visits visited remaining
          (g.termsBelow (e.size + 1) ++ e.tick.1.toList) ∧
        e.tick.2.size = e.size + 1 ∧ e.tick.2.limit = e.limit := by
  by_cases hexcluded : e.excludes (e.size + 1) = true
  · exact .inl ⟨hexcluded, tick_of_excluded active hnext hexcluded⟩
  · refine .inr ?_
    have hincluded : e.excludes (e.size + 1) = false := by simpa using hexcluded
    have htable := table.cover (e.size + 1)
    have hrows := table.lt_size_cover (e.size + 1)
    have hfirst := htable.below (e.size + 1) hrows start
    cases hds : g.derivations start (e.size + 1) with
    | nil =>
      rw [hds] at hfirst
      rw [tick_of_first_none active hnext hincluded hfirst]
      exact ⟨[], [], ⟨⟨active, hincluded, htable, hds, rfl⟩, rfl, fun _ => rfl,
        fun hne => absurd rfl hne, fun hne => absurd rfl hne⟩, rfl, rfl⟩
    | cons d rest =>
      rw [hds] at hfirst
      rw [tick_of_first active hnext hincluded hfirst]
      have hwithin : Within { e with
          size := e.size + 1, table := e.table.cover g (e.size + 1), seen := ∅ } []
          (d :: rest) (g.termsBelow (e.size + 1)) :=
        ⟨active, hincluded, htable, hds, (List.append_nil _).symm⟩
      obtain ⟨hvisits, hsize, hlimit⟩ := hwithin.visit (Nat.le_of_lt hrows) (by simp)
      exact ⟨[d], rest, hvisits, hsize, hlimit⟩

/-- After the last derivation of a size all its terms are produced, and the next size follows. -/
theorem Visits.tick_of_nil (h : e.Visits visited [] out) :
    e.tick.1 = none ∧ e.tick.2.Finished out ∧ e.tick.2.limit = e.limit ∨
      ∃ visited' remaining', e.tick.2.Visits visited' remaining' (out ++ e.tick.1.toList) ∧
        e.tick.2.size = e.size + 1 ∧ e.tick.2.limit = e.limit := by
  have hlist : g.derivations start e.size = visited := by rw [h.list, List.append_nil]
  have hout : out = g.termsBelow (e.size + 1) := by
    rw [h.out_eq, termsBelow_succ, termsOf, hlist]
  have hnext : e.current.bind (·.next? g e.table) = none := by
    by_cases hne : visited = []
    · rw [h.current, hne]
      rfl
    · have hcurrent := h.current
      rw [List.getLast?_eq_getLast_of_ne_nil hne] at hcurrent
      rw [← List.dropLast_append_getLast hne] at hlist
      rw [hcurrent, Option.bind_some, next?_eq (h.table.below.mono (h.rows hne)) hlist]
      rfl
  rcases tick_of_next_none h.active h.table hnext with ⟨hexcluded, htick⟩ | hvisits
  · rw [htick]
    refine .inl ⟨rfl, ⟨rfl, hexcluded, fun size hsize => ?_, hout⟩, rfl⟩
    exact excludes_mono h.included (Nat.lt_succ_iff.1 hsize)
  · rw [hout]
    exact .inr hvisits

/-! ## Runs -/

/-- The enumerator has produced some terms, and goes on from there. -/
def Reached (e : Enumerator g) (out : List Term) : Prop :=
  (∃ visited remaining, e.Visits visited remaining out) ∨ e.Finished out

theorem reached_new (g : Grammar) (maxSize : Option Nat) : (new g maxSize).Reached [] :=
  .inl ⟨[], [], visits_new g maxSize⟩

/-- A tick keeps to the order of the enumeration. -/
theorem Reached.tick (h : e.Reached out) :
    e.tick.2.Reached (out ++ e.tick.1.toList) ∧ e.tick.2.limit = e.limit := by
  rcases h with ⟨visited, _ | ⟨d, remaining⟩, h⟩ | h
  · rcases h.tick_of_nil with
      ⟨hnone, hfinished, hlimit⟩ | ⟨visited', remaining', hvisits, -, hlimit⟩
    · rw [hnone]
      exact ⟨.inr (by simpa using hfinished), hlimit⟩
    · exact ⟨.inl ⟨visited', remaining', hvisits⟩, hlimit⟩
  · obtain ⟨hvisits, -, hlimit⟩ := h.tick_of_cons
    exact ⟨.inl ⟨_, _, hvisits⟩, hlimit⟩
  · rw [tick_of_exhausted h.exhausted]
    exact ⟨.inr (by simpa using h), rfl⟩

theorem Reached.finished (h : e.Reached out) (hex : e.exhausted = true) : e.Finished out := by
  rcases h with ⟨visited, remaining, h⟩ | h
  · rw [h.active] at hex
    cases hex
  · exact h

/-- The terms produced have smallest derivations within the limit, in order. -/
theorem Reached.out_spec (h : e.Reached out) : out.Nodup ∧
    (∀ t ∈ out, ∃ s, g.minSize start t = some s ∧ e.excludes s = false) ∧
      out.Pairwise fun t u =>
        ∀ s s', g.minSize start t = some s → g.minSize start u = some s' → s ≤ s' := by
  rcases h with ⟨visited, remaining, h⟩ | h
  · have hbegins : out <+: g.termsBelow (e.size + 1) := by
      rw [h.out_eq, termsBelow_succ, termsOf, h.list]
      exact (List.prefix_append_right_inj _).2 (produced_append visited remaining)
    refine ⟨(nodup_termsBelow _).sublist hbegins.sublist, fun t ht => ?_,
      (pairwise_termsBelow _).sublist hbegins.sublist⟩
    obtain ⟨s, hlt, hs⟩ := mem_termsBelow.1 (hbegins.subset ht)
    exact ⟨s, hs, excludes_mono h.included (by omega)⟩
  · rw [h.out_eq]
    refine ⟨nodup_termsBelow _, fun t ht => ?_, pairwise_termsBelow _⟩
    obtain ⟨s, hlt, hs⟩ := mem_termsBelow.1 ht
    exact ⟨s, hs, h.included s hlt⟩

/-- At the end all terms within the limit are produced. -/
theorem Finished.mem_out (h : e.Finished out) {t : Term} {s : Nat} (hs : g.minSize start t = some s)
    (hincluded : e.excludes s = false) : t ∈ out := by
  rw [h.out_eq]
  refine mem_termsBelow.2 ⟨s, ?_, hs⟩
  by_contra hle
  have := excludes_mono hincluded (Nat.le_of_not_lt hle)
  rw [h.excluded] at this
  cases this

/-- Some number of ticks, with the terms they produce. -/
def run : (ticks : Nat) → Enumerator g → List Term × Enumerator g
  | 0, e => ([], e)
  | ticks + 1, e => (e.tick.1.toList ++ (e.tick.2.run ticks).1, (e.tick.2.run ticks).2)

theorem run_add (m n : Nat) (e : Enumerator g) :
    e.run (m + n) = ((e.run m).1 ++ ((e.run m).2.run n).1, ((e.run m).2.run n).2) := by
  induction m generalizing e with
  | zero => simp [run]
  | succ m ih => rw [Nat.succ_add, run, ih, run, List.append_assoc]

theorem Reached.run (h : e.Reached out) (ticks : Nat) :
    (e.run ticks).2.Reached (out ++ (e.run ticks).1) ∧ (e.run ticks).2.limit = e.limit := by
  induction ticks generalizing e out with
  | zero => exact ⟨by simpa [Enumerator.run] using h, rfl⟩
  | succ ticks ih =>
    obtain ⟨htick, hlimit⟩ := h.tick
    obtain ⟨hrun, hlimit'⟩ := ih htick
    exact ⟨by simpa [Enumerator.run] using hrun, hlimit'.trans hlimit⟩

/-- The derivations that are left of a size are visited one by one. -/
theorem Visits.run_remaining (h : e.Visits visited remaining out) :
    ∃ visited', (e.run remaining.length).2.Visits visited' []
        (out ++ (e.run remaining.length).1) ∧ (e.run remaining.length).2.size = e.size := by
  induction remaining generalizing e visited out with
  | nil => exact ⟨visited, by simpa [Enumerator.run] using h, rfl⟩
  | cons d remaining ih =>
    obtain ⟨htick, hsize, -⟩ := h.tick_of_cons
    obtain ⟨visited', hvisits, hsize'⟩ := ih htick
    exact ⟨visited', by simpa [Enumerator.run] using hvisits, hsize'.trans hsize⟩

/-- Every size is reached after some ticks, unless it lies beyond the limit. -/
theorem Reached.exists_run (h : e.Reached out) (size : Nat) :
    ∃ ticks, (e.run ticks).2.exhausted = true ∨ size ≤ (e.run ticks).2.size := by
  induction size with
  | zero => exact ⟨0, .inr (Nat.zero_le _)⟩
  | succ size ih =>
    obtain ⟨ticks, hex | hsize⟩ := ih
    · exact ⟨ticks, .inl hex⟩
    · obtain ⟨hreached, -⟩ := h.run ticks
      rcases hreached with ⟨visited, remaining, hvisits⟩ | hfinished
      · obtain ⟨visited', hall, hsame⟩ := hvisits.run_remaining
        refine ⟨ticks + (remaining.length + 1), ?_⟩
        rw [run_add, run_add]
        rcases hall.tick_of_nil with ⟨-, hfinished, -⟩ | ⟨_, _, hvisits', hnext, -⟩
        · exact .inl hfinished.exhausted
        · refine .inr ?_
          show size + 1 ≤ ((e.run ticks).2.run remaining.length).2.tick.2.size
          rw [hnext, hsame]
          exact Nat.succ_le_succ hsize
      · exact ⟨ticks, .inl hfinished.exhausted⟩

/-- With a limit, the end is reached after some ticks. -/
theorem Reached.exists_exhausted (h : e.Reached out) {limit : Nat} (hlimit : e.limit = some limit) :
    ∃ ticks, (e.run ticks).2.exhausted = true := by
  obtain ⟨ticks, hex | hsize⟩ := h.exists_run (limit + 1)
  · exact ⟨ticks, hex⟩
  · obtain ⟨hreached, hsame⟩ := h.run ticks
    rcases hreached with ⟨visited, remaining, hvisits⟩ | hfinished
    · have hincluded := hvisits.included
      rw [excludes, hsame, hlimit, Option.any_some, decide_eq_false_iff_not] at hincluded
      exact absurd hsize hincluded
    · exact ⟨ticks, hfinished.exhausted⟩

/-! ## Terms one after the other -/

/-- A call returns the term that its first tick produces. -/
theorem next_of_some {t : Term} (htick : e.tick.1 = some t) (ticks : Nat) :
    e.next (ticks + 1) = some (some t, e.tick.2) := by
  rw [Enumerator.next, ← Prod.mk.eta (p := e.tick), htick]

/-- A call returns nothing if its first tick finds the end. -/
theorem next_of_end (htick : e.tick.1 = none) (hex : e.tick.2.exhausted = true) (ticks : Nat) :
    e.next (ticks + 1) = some (none, e.tick.2) := by
  rw [Enumerator.next, ← Prod.mk.eta (p := e.tick), htick]
  exact if_pos hex

/-- A call goes on after a tick that produces nothing. -/
theorem next_of_none (htick : e.tick.1 = none) (hex : e.tick.2.exhausted = false) (ticks : Nat) :
    e.next (ticks + 1) = e.tick.2.next ticks := by
  rw [Enumerator.next, ← Prod.mk.eta (p := e.tick), htick]
  exact if_neg (Bool.eq_false_iff.1 hex)

/-- A call returns the next term, or nothing at the end. -/
theorem Reached.next (h : e.Reached out) {ticks : Nat} {o : Option Term} {e' : Enumerator g}
    (hnext : e.next ticks = some (o, e')) :
    e'.Reached (out ++ o.toList) ∧ e'.limit = e.limit ∧ (o = none → e'.exhausted = true) := by
  induction ticks generalizing e out with
  | zero => cases hnext
  | succ ticks ih =>
    obtain ⟨htick, hlimit⟩ := h.tick
    rw [Enumerator.next] at hnext
    split at hnext
    next t e₁ heq =>
      obtain ⟨rfl, rfl⟩ := Prod.mk.inj (Option.some.inj hnext)
      rw [heq] at htick hlimit
      exact ⟨htick, hlimit, fun h => by cases h⟩
    next e₁ heq =>
      rw [heq] at htick hlimit
      simp only [Option.toList_none, List.append_nil] at htick
      split at hnext
      next hex =>
        obtain ⟨rfl, rfl⟩ := Prod.mk.inj (Option.some.inj hnext)
        exact ⟨by simpa using htick, hlimit, fun _ => hex⟩
      next =>
        obtain ⟨hreached, hlimit', hend⟩ := ih htick hnext
        exact ⟨hreached, hlimit'.trans hlimit, hend⟩

/-- Calls return the next terms, and fewer than asked for at the end alone. -/
theorem Reached.take (h : e.Reached out) {ticks n : Nat} {ts : List Term} {e' : Enumerator g}
    (htake : e.take ticks n = some (ts, e')) : e'.Reached (out ++ ts) ∧ e'.limit = e.limit ∧
      (ts.length < n → e'.exhausted = true) ∧ ts.length ≤ n := by
  induction n generalizing e out ts with
  | zero =>
    obtain ⟨rfl, rfl⟩ := Prod.mk.inj (Option.some.inj htake)
    exact ⟨by simpa using h, rfl, fun h => absurd h (Nat.not_lt_zero _), Nat.le_refl _⟩
  | succ n ih =>
    obtain ⟨⟨o, e₁⟩, hnext, htake⟩ := Option.bind_eq_some_iff.1 htake
    obtain ⟨hreached, hlimit, hend⟩ := h.next hnext
    cases o with
    | none =>
      obtain ⟨rfl, rfl⟩ := Prod.mk.inj (Option.some.inj htake)
      exact ⟨hreached, hlimit, fun _ => hend rfl, Nat.zero_le _⟩
    | some t =>
      obtain ⟨⟨ts', e₂⟩, hrest, heq⟩ := Option.bind_eq_some_iff.1 htake
      obtain ⟨rfl, rfl⟩ := Prod.mk.inj (Option.some.inj heq)
      obtain ⟨hreached', hlimit', hend', hle⟩ := ih hreached hrest
      refine ⟨by simpa using hreached', hlimit'.trans hlimit, fun h => hend' ?_,
        Nat.succ_le_succ hle⟩
      exact Nat.lt_of_succ_lt_succ h

theorem next_mono {ticks ticks' : Nat} (hle : ticks ≤ ticks') {r : Option Term × Enumerator g}
    (h : e.next ticks = some r) : e.next ticks' = some r := by
  induction ticks generalizing e ticks' with
  | zero => cases h
  | succ ticks ih =>
    obtain ⟨ticks', rfl⟩ : ∃ k, ticks' = k + 1 := ⟨ticks' - 1, by omega⟩
    rw [Enumerator.next] at h ⊢
    split at h
    next => exact h
    next =>
      split at h
      next hex => rwa [if_pos hex]
      next hex =>
        rw [if_neg hex]
        exact ih (Nat.le_of_succ_le_succ hle) h

theorem take_mono {ticks ticks' n : Nat} (hle : ticks ≤ ticks') {r : List Term × Enumerator g}
    (h : e.take ticks n = some r) : e.take ticks' n = some r := by
  induction n generalizing e r with
  | zero => exact h
  | succ n ih =>
    obtain ⟨⟨o, e₁⟩, hnext, h⟩ := Option.bind_eq_some_iff.1 h
    refine Option.bind_eq_some_iff.2 ⟨(o, e₁), next_mono hle hnext, ?_⟩
    cases o with
    | none => exact h
    | some t =>
      obtain ⟨⟨ts, e₂⟩, htake, h⟩ := Option.bind_eq_some_iff.1 h
      exact Option.bind_eq_some_iff.2 ⟨(ts, e₂), ih htake, h⟩

theorem next_of_exhausted (h : e.exhausted = true) (ticks : Nat) :
    e.next (ticks + 1) = some (none, e) := by
  rw [Enumerator.next, tick_of_exhausted h]
  exact if_pos h

/-- If the first rule of the start symbol is a single node, it gives the first term. -/
theorem next_new (maxSize : Option Nat) {r : Rule} {rules : List Rule}
    (hrules : g.rulesOf start = r :: rules) (hchildren : r.children = []) (hweight : r.weight = 1)
    (hlimit : (new g maxSize).excludes 1 = false) (ticks : Nat) :
    (new g maxSize).next (ticks + 1) = some (some (g.instantiate r []), { new g maxSize with
      size := 1, table := Table.empty.cover g 1, current := some (.node start 0 1 []),
      seen := (∅ : Std.HashSet Term).insert (g.instantiate r []) }) := by
  have htable := Table.sound_empty (g := g)
  have hfirst : (Table.empty.cover g 1).first start 1 = some (.node start 0 1 []) := by
    rw [(htable.cover 1).below 1 (htable.lt_size_cover 1) start]
    simp [derivations, derivationsTo, hrules, List.zipIdx_cons, derivationsBy, hchildren, hweight,
      splits, product]
  have hterm : Deriv.term g (.node start 0 1 []) = g.instantiate r [] :=
    Deriv.term_node (by rw [hrules]; rfl)
  have hsize : (g.minSize start (g.instantiate r [])).any (· < 1) = false := by
    cases hmin : g.minSize start (g.instantiate r []) with
    | none => rfl
    | some s =>
      have hpos := (isLeast_minSize.1 hmin).1.size_pos
      simp
      omega
  have htick : (new g maxSize).tick = Enumerator.visit { new g maxSize with
      size := 1, table := Table.empty.cover g 1, seen := ∅ } (.node start 0 1 []) :=
    tick_of_first (e := new g maxSize) rfl rfl hlimit hfirst
  have hnew : ((g.minSize start (g.instantiate r [])).any (· < (Deriv.node start 0 1 []).size) ||
      (∅ : Std.HashSet Term).contains (g.instantiate r [])) = false := by
    rw [Std.HashSet.contains_empty, Bool.or_false]
    exact hsize
  rw [Enumerator.next, htick, visit, hterm, hnew]
  rfl

theorem run_of_exhausted (h : e.exhausted = true) (ticks : Nat) : e.run ticks = ([], e) := by
  induction ticks with
  | zero => rfl
  | succ ticks ih =>
    rw [Enumerator.run, tick_of_exhausted h, ih]
    rfl

theorem take_of_some {t : Term} {ticks n : Nat} {ts : List Term} {e' e₁ : Enumerator g}
    (hnext : e.next ticks = some (some t, e₁)) (htake : e₁.take ticks n = some (ts, e')) :
    e.take ticks (n + 1) = some (t :: ts, e') := by
  rw [Enumerator.take, hnext, Option.bind_eq_bind, Option.bind_some]
  exact Option.bind_eq_some_iff.2 ⟨(ts, e'), htake, rfl⟩

/-- Calls go on after a tick that produces nothing. -/
theorem take_of_none (htick : e.tick.1 = none) (hex : e.tick.2.exhausted = false) {ticks n : Nat}
    {r : List Term × Enumerator g} (h : e.tick.2.take ticks (n + 1) = some r) :
    e.take (ticks + 1) (n + 1) = some r := by
  obtain ⟨⟨o, e₁⟩, hnext, hrest⟩ := Option.bind_eq_some_iff.1 h
  rw [← next_of_none htick hex] at hnext
  refine Option.bind_eq_some_iff.2 ⟨(o, e₁), hnext, ?_⟩
  cases o with
  | none => exact hrest
  | some t =>
    obtain ⟨⟨ts, e₂⟩, htake, hrest⟩ := Option.bind_eq_some_iff.1 hrest
    exact Option.bind_eq_some_iff.2 ⟨(ts, e₂), take_mono (Nat.le_succ ticks) htake, hrest⟩

/-- What ticks produce is returned by as many calls, and at the end also by one more. -/
theorem exists_take (k n : Nat) (e : Enumerator g)
    (hn : n = (e.run k).1.length ∨ n = (e.run k).1.length + 1 ∧ (e.run k).2.exhausted = true) :
    ∃ ticks e', e.take ticks n = some ((e.run k).1, e') := by
  induction k generalizing n e with
  | zero =>
    rcases hn with rfl | ⟨rfl, hex⟩
    · exact ⟨0, e, rfl⟩
    · refine ⟨1, e, ?_⟩
      rw [Enumerator.take, next_of_exhausted (show e.exhausted = true from hex)]
      rfl
  | succ k ih =>
    cases htick : e.tick.1 with
    | some t =>
      have hrun : e.run (k + 1) = (t :: (e.tick.2.run k).1, (e.tick.2.run k).2) := by
        rw [Enumerator.run, htick]
        rfl
      rw [hrun, List.length_cons] at hn
      obtain ⟨n, rfl⟩ : ∃ m, n = m + 1 := ⟨n - 1, by omega⟩
      obtain ⟨ticks, e', htake⟩ := ih n e.tick.2 (by simpa using hn)
      rw [hrun]
      have hrest := take_mono (Nat.le_succ ticks) htake
      exact ⟨ticks + 1, e', take_of_some (next_of_some htick ticks) hrest⟩
    | none =>
      have hrun : e.run (k + 1) = e.tick.2.run k := by
        rw [Enumerator.run, htick]
        rfl
      rw [hrun] at hn ⊢
      cases n with
      | zero =>
        have hnil : (e.tick.2.run k).1 = [] := List.length_eq_zero_iff.1 (by omega)
        exact ⟨0, e, by rw [hnil]; rfl⟩
      | succ n =>
        cases hex : e.tick.2.exhausted with
        | true =>
          refine ⟨1, e.tick.2, ?_⟩
          rw [Enumerator.take, next_of_end htick hex, run_of_exhausted hex]
          rfl
        | false =>
          obtain ⟨ticks, e', htake⟩ := ih (n + 1) e.tick.2 hn
          exact ⟨ticks + 1, e', take_of_none htick hex htake⟩

/-! ## The terms of an enumeration -/

/-- The smallest derivation of the term is within the limit. -/
def Includes (e : Enumerator g) (t : Term) : Prop :=
  ∃ s, g.minSize start t = some s ∧ ∀ limit, e.limit = some limit → s ≤ limit

theorem excludes_eq_false_iff {s : Nat} :
    e.excludes s = false ↔ ∀ limit, e.limit = some limit → s ≤ limit := by
  unfold excludes
  cases e.limit <;> simp

theorem includes_iff {t : Term} :
    e.Includes t ↔ ∃ s, g.minSize start t = some s ∧ e.excludes s = false := by
  simp only [Includes, excludes_eq_false_iff]

theorem includes_congr {e' : Enumerator g} (h : e'.limit = e.limit) {t : Term} :
    e'.Includes t ↔ e.Includes t := by
  rw [Includes, Includes, h]

/-- Every term within the limit is returned by some call. -/
theorem exists_take_mem (g : Grammar) (maxSize : Option Nat) {t : Term}
    (ht : (new g maxSize).Includes t) :
    ∃ ticks n ts e, (new g maxSize).take ticks n = some (ts, e) ∧ t ∈ ts := by
  obtain ⟨s, hs, hincluded⟩ := includes_iff.1 ht
  obtain ⟨k, hk⟩ := (reached_new g maxSize).exists_run (s + 1)
  obtain ⟨hreached, hlimit⟩ := (reached_new g maxSize).run k
  rw [List.nil_append] at hreached
  obtain ⟨ticks, e', htake⟩ := exists_take k _ (new g maxSize) (.inl rfl)
  refine ⟨ticks, _, _, e', htake, ?_⟩
  have hincluded' : ((new g maxSize).run k).2.excludes s = false := by
    rwa [excludes, hlimit, ← excludes]
  rcases hreached with ⟨visited, remaining, hvisits⟩ | hfinished
  · rcases hk with hex | hle
    · rw [hvisits.active] at hex
      cases hex
    · rw [hvisits.out_eq]
      exact List.mem_append_left _ (mem_termsBelow.2 ⟨s, hle, hs⟩)
  · exact hfinished.mem_out hs hincluded'

/-- An enumeration returns the terms whose smallest derivation is within the limit, each once and in
the order of the sizes of these derivations. Each of them is returned by some call, and once a call
returns nothing, all of them are returned and no call returns anything more. -/
theorem enumerates_exactly (g : Grammar) (maxSize : Option Nat) :
    (∀ t s, g.minSize start t = some s ↔ IsLeast {n | g.Derives start n t} s) ∧
    (∀ ticks n ts e, (new g maxSize).take ticks n = some (ts, e) →
      ts.Nodup ∧ (∀ t ∈ ts, (new g maxSize).Includes t) ∧
      (ts.Pairwise fun t u =>
        ∀ s s', g.minSize start t = some s → g.minSize start u = some s' → s ≤ s') ∧
      (ts.length < n → (∀ t, (new g maxSize).Includes t → t ∈ ts) ∧
        ∀ ticks, e.next (ticks + 1) = some (none, e))) ∧
    ∀ t, (new g maxSize).Includes t →
      ∃ ticks n ts e, (new g maxSize).take ticks n = some (ts, e) ∧ t ∈ ts := by
  refine ⟨fun t s => isLeast_minSize, fun ticks n ts e htake => ?_,
    fun t ht => exists_take_mem g maxSize ht⟩
  obtain ⟨hreached, hlimit, hend, -⟩ := (reached_new g maxSize).take htake
  rw [List.nil_append] at hreached
  obtain ⟨hnodup, hincluded, hordered⟩ := hreached.out_spec
  refine ⟨hnodup, fun t ht => ?_, hordered, fun hlt => ⟨fun t ht => ?_, fun ticks => ?_⟩⟩
  · exact (includes_congr hlimit).1 (includes_iff.2 (hincluded t ht))
  · obtain ⟨s, hs, hexcludes⟩ := includes_iff.1 ((includes_congr hlimit).2 ht)
    exact (hreached.finished (hend hlt)).mem_out hs hexcludes
  · exact next_of_exhausted (hend hlt) ticks

end Enumerator

end InvariantSearch
