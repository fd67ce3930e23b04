import InvariantSearch.Proofs.Enumeration

/-!
# Resuming an enumeration

A position is saved from one enumerator and resumed in another one over the same grammar, perhaps
with another limit. What the second one should return are the terms that follow the saved point in
the enumeration without a bound, up to its own limit (`Enumerator.Continues`). It does so exactly
if, whenever a term of the size reached is left, that size is beyond the limit of the second
enumerator just if the first one was exhausted (`resume_continues_iff`). So a size is lost where an
exhausted enumeration goes on with a higher limit, and a limit is passed where it is lowered within
a size.

Inside, what counts is the next tick: a resumed enumerator goes on after all terms up to the saved
point, and after an exhausted point also after the size that was refused (`goesOn_resume`). Its
limit does not stop the size reached, as if it were raised to that size (`Enumerator.raise`).
-/

namespace InvariantSearch

open Grammar

variable {g : Grammar} {out ts : List Term} {t : Term}

/-! ## The order of all terms -/

namespace Grammar

theorem termsBelow_mono {m n : Nat} (h : m ≤ n) : g.termsBelow m <+: g.termsBelow n := by
  obtain ⟨k, rfl⟩ := Nat.exists_eq_add_of_le h
  induction k with
  | zero => exact List.prefix_refl _
  | succ k ih =>
    refine (ih (Nat.le_add_right m k)).trans ?_
    rw [← Nat.add_assoc, termsBelow_succ]
    exact List.prefix_append _ _

/-- Of two beginnings of the enumeration one begins the other. -/
theorem begins_or_begins {m n : Nat} {us : List Term} (h : ts <+: g.termsBelow m)
    (h' : us <+: g.termsBelow n) : ts <+: us ∨ us <+: ts :=
  List.prefix_or_prefix_of_prefix (h.trans (termsBelow_mono (Nat.le_max_left m n)))
    (h'.trans (termsBelow_mono (Nat.le_max_right m n)))

end Grammar

namespace Enumerator

variable {e e' f : Enumerator g} {o : Option Term} {ticks k n : Nat} {us : List Term}

/-- The terms produced are a beginning of the enumeration. -/
theorem Reached.begins (h : e.Reached out) : ∃ n, out <+: g.termsBelow n := by
  rcases h with ⟨visited, remaining, h⟩ | h
  · refine ⟨e.size + 1, ?_⟩
    rw [h.out_eq, termsBelow_succ, termsOf, h.list]
    exact (List.prefix_append_right_inj _).2 (produced_append visited remaining)
  · exact ⟨e.size, h.out_eq ▸ List.prefix_refl _⟩

/-! ## What ticks keep -/

/-- What a tick can do to the enumerator. -/
theorem tick_cases (e : Enumerator g) :
    e.exhausted = true ∧ e.tick = (none, e) ∨ e.exhausted = false ∧ (
      (∃ d, e.tick = e.visit d) ∨
      e.tick = (none, { e with size := e.size + 1, current := none, exhausted := true }) ∨
      e.tick = (none, { e with
        size := e.size + 1, table := e.table.cover g (e.size + 1), current := none }) ∨
      ∃ d, e.tick = Enumerator.visit { e with
        size := e.size + 1, table := e.table.cover g (e.size + 1), seen := ∅ } d) := by
  rcases Bool.eq_false_or_eq_true e.exhausted with hex | active
  · exact .inl ⟨hex, tick_of_exhausted hex⟩
  · refine .inr ⟨active, ?_⟩
    cases hnext : e.current.bind (·.next? g e.table) with
    | some d => exact .inl ⟨d, tick_of_next active hnext⟩
    | none =>
      refine .inr ?_
      by_cases hexcluded : e.excludes (e.size + 1) = true
      · exact .inl (tick_of_excluded active hnext hexcluded)
      · refine .inr ?_
        have hincluded := Bool.eq_false_iff.2 hexcluded
        cases hfirst : (e.table.cover g (e.size + 1)).first start (e.size + 1) with
        | none => exact .inl (tick_of_first_none active hnext hincluded hfirst)
        | some d => exact .inr ⟨d, tick_of_first active hnext hincluded hfirst⟩

/-- A visit changes the current derivation, and perhaps the terms seen. -/
theorem visit_eq (e : Enumerator g) (d : Deriv) :
    ∃ seen, (e.visit d).2 = { e with current := some d, seen } := by
  unfold visit
  dsimp only
  split
  next => exact ⟨e.seen, rfl⟩
  next => exact ⟨e.seen.insert (d.term g), rfl⟩

/-- What a tick keeps: the limit, a sound table, and that an exhausted enumerator is at no
derivation. -/
structure Kept (e e' : Enumerator g) : Prop where
  limit : e'.limit = e.limit
  size : e.size ≤ e'.size
  sound : e.table.Sound g → e'.table.Sound g
  settled : (e.exhausted = true → e.current = none) → e'.exhausted = true → e'.current = none

theorem Kept.trans {e₁ e₂ e₃ : Enumerator g} (h : e₁.Kept e₂) (h' : e₂.Kept e₃) : e₁.Kept e₃ where
  limit := h'.limit.trans h.limit
  size := h.size.trans h'.size
  sound := h'.sound ∘ h.sound
  settled := h'.settled ∘ h.settled

theorem kept_refl (e : Enumerator g) : e.Kept e where
  limit := rfl
  size := Nat.le_refl _
  sound := id
  settled := id

theorem kept_tick (e : Enumerator g) : e.Kept e.tick.2 := by
  rcases e.tick_cases with ⟨-, h⟩ | ⟨active, ⟨d, h⟩ | h | h | ⟨d, h⟩⟩
  · rw [h]
    exact e.kept_refl
  · obtain ⟨seen, hvisit⟩ := e.visit_eq d
    rw [h, hvisit]
    exact ⟨rfl, Nat.le_refl _, id, fun _ hex => absurd (active.symm.trans hex) Bool.false_ne_true⟩
  · rw [h]
    exact ⟨rfl, Nat.le_succ _, id, fun _ _ => rfl⟩
  · rw [h]
    exact ⟨rfl, Nat.le_succ _, fun hsound => hsound.cover _, fun _ _ => rfl⟩
  · obtain ⟨seen, hvisit⟩ := visit_eq { e with
      size := e.size + 1, table := e.table.cover g (e.size + 1), seen := ∅ } d
    rw [h, hvisit]
    exact ⟨rfl, Nat.le_succ _, fun hsound => hsound.cover _,
      fun _ hex => absurd (active.symm.trans hex) Bool.false_ne_true⟩

theorem kept_next (h : e.next ticks = some (o, e')) : e.Kept e' := by
  induction ticks generalizing e with
  | zero => cases h
  | succ ticks ih =>
    have htick := e.kept_tick
    rw [Enumerator.next] at h
    split at h
    next t e₁ heq =>
      obtain ⟨-, rfl⟩ := Prod.mk.inj (Option.some.inj h)
      rwa [heq] at htick
    next e₁ heq =>
      rw [heq] at htick
      split at h
      next =>
        obtain ⟨-, rfl⟩ := Prod.mk.inj (Option.some.inj h)
        exact htick
      next => exact htick.trans (ih h)

theorem kept_take (h : e.take ticks n = some (us, e')) : e.Kept e' := by
  induction n generalizing e us with
  | zero =>
    obtain ⟨-, rfl⟩ := Prod.mk.inj (Option.some.inj h)
    exact e.kept_refl
  | succ n ih =>
    obtain ⟨⟨o, e₁⟩, hnext, h⟩ := Option.bind_eq_some_iff.1 h
    cases o with
    | none =>
      obtain ⟨-, rfl⟩ := Prod.mk.inj (Option.some.inj h)
      exact kept_next hnext
    | some t =>
      obtain ⟨⟨us', e₂⟩, hrest, heq⟩ := Option.bind_eq_some_iff.1 h
      obtain ⟨-, rfl⟩ := Prod.mk.inj (Option.some.inj heq)
      exact (kept_next hnext).trans (ih hrest)

/-- The enumerators over a grammar with the given bound: new ones, and what calls and resuming
make of them. -/
inductive Obtained (g : Grammar) (maxSize : Option Nat) : Enumerator g → Prop
  | new : Obtained g maxSize (new g maxSize)
  | next {e e' : Enumerator g} {ticks : Nat} {o : Option Term} :
    Obtained g maxSize e → e.next ticks = some (o, e') → Obtained g maxSize e'
  | resume {e : Enumerator g} (p : Position g) : Obtained g maxSize e →
    Obtained g maxSize (e.resume p)

theorem Obtained.spec {maxSize : Option Nat} (h : Obtained g maxSize e) :
    e.table.Sound g ∧ e.limit = (Enumerator.new g maxSize).limit := by
  induction h with
  | new => exact ⟨Table.sound_empty, rfl⟩
  | next _ hnext ih => exact ⟨(kept_next hnext).sound ih.1, (kept_next hnext).limit.trans ih.2⟩
  | resume p _ ih => exact ⟨ih.1.cover p.size, ih.2⟩

/-! ## Raising the limit -/

/-- The enumerator with a limit of at least the given size. -/
def raise (e : Enumerator g) (size : Nat) : Enumerator g :=
  { e with limit := e.limit.map (max size) }

theorem excludes_raise (e : Enumerator g) (size n : Nat) :
    (e.raise size).excludes n = (e.excludes n && decide (size < n)) := by
  unfold excludes raise
  cases e.limit with
  | none => rfl
  | some limit => simp [Bool.and_comm]

theorem visit_raise (e : Enumerator g) (size : Nat) (d : Deriv) :
    (e.raise size).visit d = ((e.visit d).1, (e.visit d).2.raise size) := by
  unfold visit raise
  dsimp only
  split <;> rfl

/-- The limit matters only beyond the size reached. -/
theorem tick_raise {size : Nat} (h : size ≤ e.size) :
    (e.raise size).tick = (e.tick.1, e.tick.2.raise size) := by
  have hexcludes : (e.raise size).excludes (e.size + 1) = e.excludes (e.size + 1) := by
    rw [excludes_raise, decide_eq_true (Nat.lt_succ_of_le h), Bool.and_true]
  rcases Bool.eq_false_or_eq_true e.exhausted with hex | active
  · rw [tick_of_exhausted hex]
    exact tick_of_exhausted (e := e.raise size) hex
  · cases hnext : e.current.bind (·.next? g e.table) with
    | some d =>
      rw [tick_of_next active hnext, ← visit_raise]
      exact tick_of_next (e := e.raise size) active hnext
    | none =>
      by_cases hexcluded : e.excludes (e.size + 1) = true
      · rw [tick_of_excluded active hnext hexcluded]
        exact tick_of_excluded (e := e.raise size) active hnext (hexcludes.trans hexcluded)
      · have hincluded := Bool.eq_false_iff.2 hexcluded
        cases hfirst : (e.table.cover g (e.size + 1)).first start (e.size + 1) with
        | none =>
          rw [tick_of_first_none active hnext hincluded hfirst]
          exact tick_of_first_none (e := e.raise size) active hnext (hexcludes.trans hincluded)
            hfirst
        | some d =>
          rw [tick_of_first active hnext hincluded hfirst, ← visit_raise]
          exact tick_of_first (e := e.raise size) active hnext (hexcludes.trans hincluded) hfirst

theorem next_raise {size : Nat} (h : size ≤ e.size) (ticks : Nat) :
    (e.raise size).next ticks = (e.next ticks).map fun r => (r.1, r.2.raise size) := by
  induction ticks generalizing e with
  | zero => rfl
  | succ ticks ih =>
    have hsize := e.kept_tick.size
    rw [Enumerator.next, Enumerator.next, tick_raise h]
    rcases htick : e.tick with ⟨_ | t, e₁⟩
    · rw [htick] at hsize
      by_cases hex : e₁.exhausted = true
      · simp only [raise, hex, if_true, Option.map_some]
      · have : (e₁.raise size).exhausted ≠ true := hex
        simp only [this, hex, ih (h.trans hsize)]
        rfl
    · rfl

theorem take_raise {size : Nat} (h : size ≤ e.size) (ticks n : Nat) :
    (e.raise size).take ticks n = (e.take ticks n).map fun r => (r.1, r.2.raise size) := by
  induction n generalizing e with
  | zero => rfl
  | succ n ih =>
    rw [take, take, next_raise h]
    rcases hnext : e.next ticks with _ | ⟨_ | t, e₁⟩
    · rfl
    · rfl
    · have hrest := ih (h.trans (kept_next hnext).size)
      simp only [Option.map_some, Option.bind_eq_bind, Option.bind_some, hrest]
      cases e₁.take ticks n <;> rfl

/-! ## Beginnings of the enumeration -/

/-- Fewer calls return the first of the terms. -/
theorem exists_take_of_le {m : Nat} (h : e.take ticks n = some (us, e')) (hle : m ≤ n) :
    ∃ e₁, e.take ticks m = some (us.take m, e₁) := by
  induction n generalizing e us m with
  | zero =>
    obtain rfl := Nat.le_zero.1 hle
    exact ⟨e, rfl⟩
  | succ n ih =>
    cases m with
    | zero => exact ⟨e, rfl⟩
    | succ m =>
      obtain ⟨⟨o, e₁⟩, hnext, h⟩ := Option.bind_eq_some_iff.1 h
      cases o with
      | none =>
        obtain ⟨rfl, rfl⟩ := Prod.mk.inj (Option.some.inj h)
        exact ⟨e₁, Option.bind_eq_some_iff.2 ⟨(none, e₁), hnext, rfl⟩⟩
      | some t =>
        obtain ⟨⟨us', e₂⟩, hrest, heq⟩ := Option.bind_eq_some_iff.1 h
        obtain ⟨rfl, rfl⟩ := Prod.mk.inj (Option.some.inj heq)
        obtain ⟨e₃, htake⟩ := ih hrest (Nat.le_of_succ_le_succ hle)
        exact ⟨e₃, take_of_some hnext htake⟩

/-- A beginning of the enumeration that is within the limit is returned. -/
theorem exists_take_of_begins {maxSize : Option Nat} (h : us <+: g.termsBelow n)
    (hincluded : ∀ t ∈ us, (new g maxSize).Includes t) :
    ∃ ticks u, (new g maxSize).take ticks us.length = some (us, u) := by
  obtain ⟨k, hk⟩ := (reached_new g maxSize).exists_run n
  obtain ⟨hreached, hlimit⟩ := (reached_new g maxSize).run k
  rw [List.nil_append] at hreached
  obtain ⟨ticks, u, htake⟩ := exists_take k _ (new g maxSize) (.inl rfl)
  have hbegins : us <+: ((new g maxSize).run k).1 := by
    rcases hk with hex | hle
    · -- At the end all terms within the limit are among those produced.
      obtain ⟨m, hout⟩ := hreached.begins
      rcases begins_or_begins h hout with hbegins | ⟨rest, rfl⟩
      · exact hbegins
      · have hnodup := (nodup_termsBelow n).sublist h.sublist
        obtain rfl : rest = [] := by
          refine List.eq_nil_iff_forall_not_mem.2 fun t ht => ?_
          obtain ⟨s, hs, hs'⟩ := includes_iff.1
            ((includes_congr hlimit).2 (hincluded t (List.mem_append_right _ ht)))
          have hmem := (hreached.finished hex).mem_out hs hs'
          exact (List.nodup_append.1 hnodup).2.2 t hmem t ht rfl
        rw [List.append_nil]
    · rcases hreached with ⟨visited, remaining, hvisits⟩ | hfinished
      · rw [hvisits.out_eq]
        exact (h.trans (termsBelow_mono hle)).trans (List.prefix_append _ _)
      · rw [hfinished.out_eq]
        exact h.trans (termsBelow_mono hle)
  obtain ⟨u', htake'⟩ := exists_take_of_le htake hbegins.length_le
  rw [← List.prefix_iff_eq_take.1 hbegins] at htake'
  exact ⟨ticks, u', htake'⟩

/-- The term follows the given ones in the enumeration without a bound. -/
def Follows (g : Grammar) (ts : List Term) (t : Term) : Prop :=
  ∃ ticks n us e, (new g none).take ticks n = some (ts ++ us, e) ∧ t ∈ us

theorem follows_iff (hbegins : ts <+: g.termsBelow n) :
    Follows g ts t ↔ t ∉ ts ∧ (new g none).Includes t := by
  constructor
  · rintro ⟨ticks, m, us, e, htake, ht⟩
    obtain ⟨hreached, hlimit, -⟩ := (reached_new g none).take htake
    rw [List.nil_append] at hreached
    obtain ⟨hnodup, hincluded, -⟩ := hreached.out_spec
    refine ⟨fun hmem => (List.nodup_append.1 hnodup).2.2 t hmem t ht rfl, ?_⟩
    exact (includes_congr hlimit).1 (includes_iff.2 (hincluded t (List.mem_append_right _ ht)))
  · rintro ⟨hnew, hincluded⟩
    obtain ⟨ticks, m, vs, e, htake, ht⟩ := exists_take_mem g none hincluded
    obtain ⟨m', hvs⟩ := ((reached_new g none).take htake).1.begins
    rcases begins_or_begins hbegins hvs with ⟨us, rfl⟩ | h
    · exact ⟨ticks, m, us, e, htake, (List.mem_append.1 ht).resolve_left hnew⟩
    · exact absurd (h.subset ht) hnew

/-- The enumerator returns the terms that follow the given ones in the enumeration without a bound
and are within its limit, and no others. -/
structure Continues (e : Enumerator g) (ts : List Term) : Prop where
  following : ∀ {ticks n us e'}, e.take ticks n = some (us, e') →
    ∃ ticks m u, (new g none).take ticks m = some (ts ++ us, u)
  within : ∀ {ticks n us e'}, e.take ticks n = some (us, e') → ∀ t ∈ us, e.Includes t
  complete : ∀ t, Follows g ts t → e.Includes t →
    ∃ ticks n us e', e.take ticks n = some (us, e') ∧ t ∈ us
  ends : ∀ {ticks n us e'}, e.take ticks n = some (us, e') → us.length < n →
    ∀ t, Follows g ts t → e.Includes t → t ∈ us

/-! ## Going on from a position -/

/-- The next tick goes on after the given terms. -/
def GoesOn (e : Enumerator g) (out : List Term) : Prop :=
  e.tick.2.Reached (out ++ e.tick.1.toList)

namespace GoesOn

theorem of_reached (h : e.Reached out) : e.GoesOn out :=
  h.tick.1

theorem nodup (h : e.GoesOn out) : out.Nodup :=
  (Reached.out_spec h).1.sublist (List.sublist_append_left _ _)

theorem next (h : e.GoesOn out) (hnext : e.next ticks = some (o, e')) :
    e'.Reached (out ++ o.toList) ∧ (o = none → e'.exhausted = true) := by
  cases ticks with
  | zero => cases hnext
  | succ ticks =>
    rw [GoesOn] at h
    rw [Enumerator.next] at hnext
    split at hnext
    next t e₁ heq =>
      obtain ⟨rfl, rfl⟩ := Prod.mk.inj (Option.some.inj hnext)
      rw [heq] at h
      exact ⟨h, fun h => by cases h⟩
    next e₁ heq =>
      rw [heq, Option.toList_none, List.append_nil] at h
      split at hnext
      next hex =>
        obtain ⟨rfl, rfl⟩ := Prod.mk.inj (Option.some.inj hnext)
        exact ⟨by simpa using h, fun _ => hex⟩
      next =>
        obtain ⟨hreached, -, hend⟩ := h.next hnext
        exact ⟨hreached, hend⟩

/-- Calls return the terms that come next, or all that are left. -/
theorem take (h : e.GoesOn out) (htake : e.take ticks (n + 1) = some (us, e')) :
    e'.Reached (out ++ us) ∧ (us.length < n + 1 → e'.exhausted = true) := by
  obtain ⟨⟨o, e₁⟩, hnext, htake⟩ := Option.bind_eq_some_iff.1 htake
  obtain ⟨hreached, hend⟩ := h.next hnext
  cases o with
  | none =>
    obtain ⟨rfl, rfl⟩ := Prod.mk.inj (Option.some.inj htake)
    exact ⟨hreached, fun _ => hend rfl⟩
  | some t =>
    obtain ⟨⟨us', e₂⟩, hrest, heq⟩ := Option.bind_eq_some_iff.1 htake
    obtain ⟨rfl, rfl⟩ := Prod.mk.inj (Option.some.inj heq)
    obtain ⟨hreached', -, hend', -⟩ := hreached.take hrest
    exact ⟨by simpa using hreached', fun hlt => hend' (Nat.lt_of_succ_lt_succ hlt)⟩

/-- What calls return is new and within the limit. -/
theorem take_spec (h : e.GoesOn out) (htake : e.take ticks n = some (us, e')) :
    ∀ t ∈ us, t ∉ out ∧ e.Includes t := by
  intro t ht
  cases n with
  | zero =>
    obtain ⟨rfl, -⟩ := Prod.mk.inj (Option.some.inj htake)
    cases ht
  | succ n =>
    obtain ⟨hnodup, hincluded, -⟩ := (h.take htake).1.out_spec
    refine ⟨fun hmem => (List.nodup_append.1 hnodup).2.2 t hmem t ht rfl, ?_⟩
    exact (includes_congr (kept_take htake).limit).1
      (includes_iff.2 (hincluded t (List.mem_append_right _ ht)))

/-- Every term within the limit is returned, unless it came before. -/
theorem exists_take_mem (h : e.GoesOn out) (hincluded : e.Includes t) (hnew : t ∉ out) :
    ∃ ticks n us e', e.take ticks n = some (us, e') ∧ t ∈ us := by
  obtain ⟨s, hs, hexcludes⟩ := includes_iff.1 hincluded
  obtain ⟨k, hk⟩ := Reached.exists_run h (s + 1)
  obtain ⟨hreached, hlimit⟩ := Reached.run h k
  have hincluded' : (e.tick.2.run k).2.excludes s = false := by
    rwa [excludes, hlimit, e.kept_tick.limit, ← excludes]
  have hmem : t ∈ out ++ (e.run (k + 1)).1 := by
    rw [Enumerator.run, ← List.append_assoc]
    rcases hreached with ⟨visited, remaining, hvisits⟩ | hfinished
    · rcases hk with hex | hle
      · rw [hvisits.active] at hex
        cases hex
      · rw [hvisits.out_eq]
        exact List.mem_append_left _ (mem_termsBelow.2 ⟨s, hle, hs⟩)
    · exact hfinished.mem_out hs hincluded'
  obtain ⟨ticks, e', htake⟩ := exists_take (k + 1) _ e (.inl rfl)
  exact ⟨ticks, _, _, e', htake, (List.mem_append.1 hmem).resolve_left hnew⟩

/-- Once fewer terms are returned than asked for, all terms within the limit are. -/
theorem mem_of_end (h : e.GoesOn out) (htake : e.take ticks n = some (us, e'))
    (hlt : us.length < n) (hincluded : e.Includes t) : t ∈ out ++ us := by
  cases n with
  | zero => exact absurd hlt (Nat.not_lt_zero _)
  | succ n =>
    obtain ⟨hreached, hend⟩ := h.take htake
    obtain ⟨s, hs, hexcludes⟩ :=
      includes_iff.1 ((includes_congr (kept_take htake).limit).2 hincluded)
    exact (hreached.finished (hend hlt)).mem_out hs hexcludes

end GoesOn

/-- The terms of the size that an exhausted enumerator stands at. The enumerator has refused the
size, but one that is resumed there goes on after it. -/
def skipped (e : Enumerator g) : List Term := if e.exhausted then g.termsOf e.size else []

theorem mem_skipped : t ∈ e.skipped ↔
    e.exhausted = true ∧ g.minSize start t = some e.size := by
  unfold skipped
  split
  next hex => simp [hex, mem_termsOf]
  next hex => simp [hex]

theorem includes_raise {size : Nat} : (e.raise size).Includes t ↔
    ∃ s, g.minSize start t = some s ∧ (s ≤ size ∨ e.excludes s = false) := by
  rw [includes_iff]
  refine exists_congr fun s => and_congr_right fun _ => ?_
  rw [excludes_raise, Bool.and_eq_false_iff, decide_eq_false_iff_not, Nat.not_lt, or_comm]

/-- Without a bound everything is included that is with one. -/
theorem Obtained.includes {b : Option Nat} (hf : f.Obtained g b) (h : f.Includes t) :
    (Enumerator.new g none).Includes t := by
  obtain ⟨s, hs, hle⟩ := (includes_congr hf.spec.2).1 h
  refine ⟨s, hs, fun limit hlimit => ?_⟩
  have hmax : g.maxSize = some limit := by
    change Option.merge min none g.maxSize = some limit at hlimit
    cases hmax : g.maxSize <;> simp_all
  cases b with
  | none => exact hle limit hlimit
  | some b =>
    refine (hle (min b limit) ?_).trans (Nat.min_le_right b limit)
    show Option.merge min (some b) g.maxSize = some (min b limit)
    rw [hmax]
    rfl

theorem take_resume_raise (e f : Enumerator g) (ticks n : Nat) :
    ((f.resume e.position).raise e.size).take ticks n =
      ((f.resume e.position).take ticks n).map fun r => (r.1, r.2.raise e.size) :=
  take_raise (e := f.resume e.position) (Nat.le_refl e.size) ticks n

section Resumed

variable {a b : Option Nat} {ticks₀ : Nat} (saved : (new g a).take ticks₀ k = some (ts, e))

include saved

theorem reached_saved : e.Reached ts :=
  ((reached_new g a).take saved).1

/-- What is returned before the saved point is all terms of smaller sizes, and no term of a larger
size than that of the point. -/
theorem saved_spec (hs : g.minSize start t = some n) :
    (n < e.size → t ∈ ts) ∧ (t ∈ ts → n ≤ e.size) := by
  rcases reached_saved saved with ⟨visited, remaining, h⟩ | h
  · rw [h.out_eq, List.mem_append, mem_termsBelow, mem_produced, hs]
    refine ⟨fun hlt => .inl ⟨n, hlt, rfl⟩, ?_⟩
    rintro (⟨s, hlt, heq⟩ | ⟨heq, -⟩)
    · exact (Option.some.inj heq).le.trans hlt.le
    · exact (Option.some.inj heq).le
  · rw [h.out_eq, mem_termsBelow, hs]
    refine ⟨fun hlt => ⟨n, hlt, rfl⟩, ?_⟩
    rintro ⟨s, hlt, heq⟩
    exact (Option.some.inj heq).le.trans hlt.le

/-- A resumed enumerator goes on after the saved point, and after the size refused there, as if its
limit were at least the size of the point. -/
theorem goesOn_resume (hf : f.Obtained g b) :
    ((f.resume e.position).raise e.size).GoesOn (ts ++ e.skipped) := by
  have htable : (f.table.cover g e.size).Sound g := hf.spec.1.cover e.size
  have hrows : e.size ≤ (f.table.cover g e.size).rows.size :=
    (hf.spec.1.lt_size_cover e.size).le
  have hincluded : ∀ {n}, n ≤ e.size → ((f.resume e.position).raise e.size).excludes n = false := by
    intro n hle
    rw [excludes_raise, decide_eq_false (Nat.not_lt.2 hle), Bool.and_false]
  rcases reached_saved saved with ⟨visited, remaining, h⟩ | h
  · have hskipped : e.skipped = [] := by simp [skipped, h.active]
    rw [hskipped, List.append_nil]
    exact .of_reached (.inl ⟨visited, remaining, ⟨rfl, hincluded (Nat.le_refl _), htable, h.list,
      h.out_eq⟩, h.current, h.rest, fun _ => hrows, h.seen⟩)
  · have hcurrent : e.current = none := (kept_take saved).settled (fun _ => rfl) h.exhausted
    have hout : ts ++ e.skipped = g.termsBelow (e.size + 1) := by
      rw [h.out_eq, termsBelow_succ, skipped, if_pos h.exhausted]
    have hnext : ((f.resume e.position).raise e.size).current.bind
        (·.next? g ((f.resume e.position).raise e.size).table) = none := by
      show e.current.bind _ = none
      rw [hcurrent]
      rfl
    rw [hout]
    rcases tick_of_next_none (e := (f.resume e.position).raise e.size) rfl htable hnext with
      ⟨hexcluded, htick⟩ | ⟨visited, remaining, hvisits, -, -⟩
    · rw [GoesOn, htick, Option.toList_none, List.append_nil]
      exact .inr ⟨rfl, hexcluded, fun n hlt => hincluded (Nat.lt_succ_iff.1 hlt), rfl⟩
    · exact .inl ⟨visited, remaining, hvisits⟩

/-- The terms returned before the saved point begin the enumeration without a bound. -/
theorem begins_saved : (∃ n, ts <+: g.termsBelow n) ∧ ∀ t ∈ ts, (new g none).Includes t := by
  have hreached := reached_saved saved
  refine ⟨hreached.begins, fun t ht => (@Obtained.new g a).includes ?_⟩
  exact (includes_congr (kept_take saved).limit).1 (includes_iff.2 (hreached.out_spec.2.1 t ht))

theorem follows_saved_iff : Follows g ts t ↔ t ∉ ts ∧ (new g none).Includes t := by
  obtain ⟨n, hbegins⟩ := (begins_saved saved).1
  exact follows_iff hbegins

section Resume

variable (hf : f.Obtained g b)

include hf

/-- What a resumed enumerator returns comes after the saved point and after the size refused there,
and is within the limit or of a size already reached. -/
theorem resume_take_spec (htake : (f.resume e.position).take ticks n = some (us, e')) :
    (∀ t ∈ us, t ∉ ts ++ e.skipped ∧
      ∃ s, g.minSize start t = some s ∧ (s ≤ e.size ∨ f.excludes s = false)) ∧
    (us ≠ [] → ∃ m, ts ++ e.skipped ++ us <+: g.termsBelow m) ∧
    (us.length < n → ∀ t, f.Includes t → t ∈ ts ++ e.skipped ++ us) := by
  have hgoes := goesOn_resume saved hf
  have hraised : ((f.resume e.position).raise e.size).take ticks n =
      some (us, e'.raise e.size) := by
    rw [take_resume_raise, htake]
    rfl
  refine ⟨fun t ht => ?_, fun hne => ?_, fun hlt t hincluded => ?_⟩
  · obtain ⟨hnew, hincluded⟩ := hgoes.take_spec hraised t ht
    exact ⟨hnew, includes_raise.1 hincluded⟩
  · cases n with
    | zero =>
      obtain ⟨rfl, -⟩ := Prod.mk.inj (Option.some.inj hraised)
      exact absurd rfl hne
    | succ n => exact (hgoes.take hraised).1.begins
  · obtain ⟨s, hs, hexcludes⟩ := includes_iff.1 hincluded
    exact hgoes.mem_of_end hraised hlt (includes_raise.2 ⟨s, hs, .inr hexcludes⟩)

/-- Each such term is returned. -/
theorem exists_resume_take_mem (hs : g.minSize start t = some n)
    (hn : n ≤ e.size ∨ f.excludes n = false) (hnew : t ∉ ts ++ e.skipped) :
    ∃ ticks n us e', (f.resume e.position).take ticks n = some (us, e') ∧ t ∈ us := by
  have hincluded : ((f.resume e.position).raise e.size).Includes t := includes_raise.2 ⟨n, hs, hn⟩
  obtain ⟨ticks, m, us, r, htake, ht⟩ :=
    (goesOn_resume saved hf).exists_take_mem hincluded hnew
  rw [take_resume_raise] at htake
  obtain ⟨⟨us', e'⟩, htake', heq⟩ := Option.map_eq_some_iff.1 htake
  obtain ⟨rfl, -⟩ := Prod.mk.inj heq
  exact ⟨ticks, m, us', e', htake', ht⟩

/-- If an enumerator goes on as it should and a term of the size of the saved point is left, the
size is beyond its limit just if it was beyond the limit of the first enumerator. -/
theorem excludes_of_continues (h : (f.resume e.position).Continues ts)
    (hs : g.minSize start t = some e.size) (hnew : t ∉ ts) : f.excludes e.size = e.exhausted := by
  rcases Bool.eq_false_or_eq_true e.exhausted with hex | active
  · rw [hex]
    by_contra hincluded
    have hf' : f.Includes t := includes_iff.2 ⟨e.size, hs, Bool.eq_false_iff.2 hincluded⟩
    have hfollows := (follows_saved_iff saved).2 ⟨hnew, hf.includes hf'⟩
    obtain ⟨ticks, n, us, e', htake, ht⟩ := h.complete t hfollows hf'
    refine ((resume_take_spec saved hf htake).1 t ht).1 (List.mem_append_right _ ?_)
    exact mem_skipped.2 ⟨hex, hs⟩
  · have hskipped : t ∉ ts ++ e.skipped := by
      simp [hnew, mem_skipped, active]
    obtain ⟨ticks, n, us, e', htake, ht⟩ :=
      exists_resume_take_mem saved hf hs (.inl (Nat.le_refl e.size)) hskipped
    obtain ⟨s, hs', hexcludes⟩ := includes_iff.1 (h.within htake t ht)
    obtain rfl := Option.some.inj (hs.symm.trans hs')
    exact Eq.trans hexcludes active.symm

variable (hsize : ∀ t, g.minSize start t = some e.size → t ∉ ts → f.excludes e.size = e.exhausted)

include hsize

/-- The size refused is beyond the second limit as well. -/
theorem excludes_of_mem_skipped (ht : t ∈ e.skipped) : f.excludes e.size = true := by
  obtain ⟨hex, hs⟩ := mem_skipped.1 ht
  have hnew : t ∉ ts := fun hmem =>
    (List.nodup_append.1 (goesOn_resume saved hf).nodup).2.2 t hmem t ht rfl
  rw [hsize t hs hnew, hex]

theorem not_mem_skipped (hincluded : f.Includes t) : t ∉ e.skipped := by
  intro ht
  obtain ⟨s, hs, hexcludes⟩ := includes_iff.1 hincluded
  obtain rfl := Option.some.inj (hs.symm.trans (mem_skipped.1 ht).2)
  rw [excludes_of_mem_skipped saved hf hsize ht] at hexcludes
  cases hexcludes

/-- What is returned is within the second limit, and not of a smaller size than the saved point. -/
theorem resume_take_within (htake : (f.resume e.position).take ticks n = some (us, e'))
    (ht : t ∈ us) : ∃ s, g.minSize start t = some s ∧ f.excludes s = false ∧ e.size ≤ s := by
  obtain ⟨hnew, s, hs, hincluded⟩ := (resume_take_spec saved hf htake).1 t ht
  rw [List.mem_append, not_or] at hnew
  have hge : e.size ≤ s := Nat.le_of_not_lt fun hlt => hnew.1 ((saved_spec saved hs).1 hlt)
  rcases hincluded with hle | hexcludes
  · obtain rfl := hle.antisymm hge
    refine ⟨_, hs, (hsize t hs hnew.1).trans (Bool.eq_false_iff.2 fun hex => ?_), hge⟩
    exact hnew.2 (mem_skipped.2 ⟨hex, hs⟩)
  · exact ⟨s, hs, hexcludes, hge⟩

/-- An enumerator goes on as it should from a position whose size is done with, or is beyond its
limit just if it was beyond the limit of the first enumerator. -/
theorem continues_of_excludes : (f.resume e.position).Continues ts where
  following {ticks n us e'} htake := by
    obtain ⟨hbegins, hincluded⟩ := begins_saved saved
    have hwithin : ∀ t ∈ us, (new g none).Includes t := fun t ht => by
      obtain ⟨s, hs, hexcludes, -⟩ := resume_take_within saved hf hsize htake ht
      exact hf.includes (includes_iff.2 ⟨s, hs, hexcludes⟩)
    have hbegins' : ∃ m, ts ++ us <+: g.termsBelow m := by
      rcases List.eq_nil_or_concat' us with rfl | ⟨us', u, rfl⟩
      · rwa [List.append_nil]
      · -- The size of a term that is returned is not refused, nor is that of the saved point.
        have hnone : e.skipped = [] := by
          refine List.eq_nil_iff_forall_not_mem.2 fun t ht => ?_
          obtain ⟨s, -, hexcludes, hge⟩ :=
            resume_take_within saved hf hsize htake List.mem_concat_self
          have hexcluded := excludes_of_mem_skipped saved hf hsize ht
          rw [excludes_mono hexcludes hge] at hexcluded
          cases hexcluded
        have hmore := (resume_take_spec saved hf htake).2.1 (by simp)
        rwa [hnone, List.append_nil] at hmore
    obtain ⟨m, hm⟩ := hbegins'
    obtain ⟨ticks', u, htake'⟩ := exists_take_of_begins hm fun t ht =>
      (List.mem_append.1 ht).elim (hincluded t) (hwithin t)
    exact ⟨ticks', _, u, htake'⟩
  within htake t ht := by
    obtain ⟨s, hs, hexcludes, -⟩ := resume_take_within saved hf hsize htake ht
    exact includes_iff.2 ⟨s, hs, hexcludes⟩
  complete t hfollows hincluded := by
    obtain ⟨s, hs, hexcludes⟩ := includes_iff.1 hincluded
    refine exists_resume_take_mem saved hf hs (.inr hexcludes) ?_
    rw [List.mem_append, not_or]
    exact ⟨((follows_saved_iff saved).1 hfollows).1, not_mem_skipped saved hf hsize hincluded⟩
  ends htake hlt t hfollows hincluded := by
    have hmem := (resume_take_spec saved hf htake).2.2 hlt t hincluded
    rw [List.append_assoc, List.mem_append, List.mem_append] at hmem
    exact (hmem.resolve_left ((follows_saved_iff saved).1 hfollows).1).resolve_left
      (not_mem_skipped saved hf hsize hincluded)

end Resume

end Resumed

/-- An enumerator is resumed where another one over the same grammar was saved. It returns the terms
that follow the saved point in the enumeration without a bound and are within its own limit, and no
others, if and only if the following holds in case a term of the size reached is left: that size is
beyond its limit just if the other enumerator was exhausted. -/
theorem resume_continues_iff {a b : Option Nat} (saved : (new g a).take ticks k = some (ts, e))
    (hf : f.Obtained g b) : (f.resume e.position).Continues ts ↔
      ∀ t, g.minSize start t = some e.size → t ∉ ts → f.excludes e.size = e.exhausted :=
  ⟨fun h _ => excludes_of_continues saved hf h, continues_of_excludes saved hf⟩

end Enumerator

/-! ## Three terms -/

/-- Two sizes, the second with two terms. -/
def literals : Grammar :=
  single [.bool true, .unary .not (.bool true), .unary .not (.bool false)]

namespace Enumerator

theorem minSize_literals (b : Bool) : literals.minSize start (.unary .not (.bool b)) = some 2 := by
  have hone : literals.derivations start 1 = [.node start 0 1 []] := rfl
  have htwo : literals.derivations start 2 = [.node start 1 2 [], .node start 2 2 []] := rfl
  refine isLeast_minSize.2 ⟨?_, fun n ⟨d, hvalid, hnt, hsize, hterm⟩ => ?_⟩
  · have hmem : .node start (if b then 1 else 2) 2 [] ∈ literals.derivations start 2 := by
      rw [htwo]
      cases b <;> simp
    obtain ⟨hvalid, hnt, hsize⟩ := mem_derivations.1 hmem
    refine ⟨_, hvalid, hnt, hsize, ?_⟩
    cases b <;> rfl
  · by_contra hlt
    have hmem := mem_derivations.2 ⟨hvalid, hnt, hsize⟩
    have hn : n = 0 ∨ n = 1 := by omega
    rcases hn with rfl | rfl
    · rw [derivations_zero] at hmem
      cases hmem
    · rw [hone, List.mem_singleton] at hmem
      subst hmem
      cases hterm

/-- The first call returns the literal. -/
theorem next_literals (maxSize : Option Nat) (h : (new literals maxSize).excludes 1 = false) :
    ∃ e, (new literals maxSize).next 1 = some (some (.bool true), e) ∧
      e.exhausted = false ∧ e.size = 1 ∧ e.limit = (new literals maxSize).limit ∧
      e.table.Sound literals ∧ e.current.bind (·.next? literals e.table) = none := by
  have hrules : literals.rulesOf start = [⟨.bool true, [], 1⟩,
      ⟨.unary .not (.bool true), [], 2⟩, ⟨.unary .not (.bool false), [], 2⟩] := rfl
  exact ⟨_, next_new maxSize hrules rfl rfl h 0, rfl, rfl, rfl, Table.sound_empty.cover 1, rfl⟩

/-- A position within the limits of both enumerators is resumed as it should be. -/
theorem continues_literals : ∃ e, (new literals none).take 1 1 = some ([.bool true], e) ∧
    ((new literals none).resume e.position).Continues [.bool true] := by
  obtain ⟨e, hnext, active, hsize, -⟩ := next_literals none (by decide)
  have htake : (new literals none).take 1 1 = some ([.bool true], e) := take_of_some hnext rfl
  refine ⟨e, htake, (resume_continues_iff htake .new).2 fun t _ _ => ?_⟩
  rw [hsize, active]
  decide

/-- After an exhausted enumeration a higher limit loses a term, and in the midst of a size a lower
one does not keep a term away. -/
theorem resume_literals :
    (∃ e, (new literals (some 1)).take 1 2 = some ([.bool true], e) ∧
      ¬((new literals none).resume e.position).Continues [.bool true]) ∧
    ∃ e, (new literals none).take 1 2 = some ([.bool true, .unary .not (.bool true)], e) ∧
      ¬((new literals (some 1)).resume e.position).Continues
        [.bool true, .unary .not (.bool true)] := by
  constructor
  · obtain ⟨e, hnext, active, hsize, hlimit, -, hdone⟩ := next_literals (some 1) (by decide)
    have hexcluded : e.excludes (e.size + 1) = true := by
      rw [hsize, excludes, hlimit]
      decide
    have htick := tick_of_excluded active hdone hexcluded
    have htake : (new literals (some 1)).take 1 2 = some ([.bool true],
        { e with size := e.size + 1, current := none, exhausted := true }) := by
      refine take_of_some hnext ?_
      rw [Enumerator.take, next_of_end (by rw [htick]) (by rw [htick]), htick]
      rfl
    refine ⟨_, htake, fun hcontinues => ?_⟩
    have hs : literals.minSize start (.unary .not (.bool true)) = some (e.size + 1) := by
      rw [hsize, minSize_literals]
    have h := excludes_of_continues htake .new hcontinues hs (by simp)
    have hexcludes : (new literals none).excludes 2 = true := by
      rw [hsize] at h
      exact h
    exact absurd hexcludes (by decide)
  · obtain ⟨e, hnext, active, hsize, hlimit, htable, hdone⟩ := next_literals none (by decide)
    have hincluded : e.excludes (e.size + 1) = false := by
      rw [hsize, excludes, hlimit]
      decide
    have hfirst : (e.table.cover literals (e.size + 1)).first start (e.size + 1) =
        some (.node start 1 2 []) := by
      rw [(htable.cover _).below _ (htable.lt_size_cover _) start, hsize]
      rfl
    have htick := tick_of_first active hdone hincluded hfirst
    have hnew : ((literals.minSize start ((Deriv.node start 1 2 []).term literals)).any
        (· < (Deriv.node start 1 2 []).size) || (∅ : Std.HashSet Term).contains
          ((Deriv.node start 1 2 []).term literals)) = false := by
      rw [Std.HashSet.contains_empty, Bool.or_false]
      have hs := minSize_literals true
      change (literals.minSize start (.unary .not (.bool true))).any _ = false
      rw [hs]
      rfl
    rw [visit, hnew] at htick
    have htake : (new literals none).take 1 2 =
        some ([.bool true, .unary .not (.bool true)], e.tick.2) :=
      take_of_some hnext (take_of_some (next_of_some (by rw [htick]; rfl) 0) rfl)
    refine ⟨_, htake, fun hcontinues => ?_⟩
    have hs : literals.minSize start (.unary .not (.bool false)) = some e.tick.2.size := by
      rw [htick, minSize_literals]
      simp [hsize]
    have h := excludes_of_continues htake .new hcontinues hs (by simp)
    have hexcludes : (new literals (some 1)).excludes 2 = false := by
      rw [htick] at h
      simpa [hsize, active] using h
    exact absurd hexcludes (by decide)

end Enumerator

end InvariantSearch
