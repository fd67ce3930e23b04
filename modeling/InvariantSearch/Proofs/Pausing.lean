import InvariantSearch.Proofs.Resumption

/-!
# Pausing an enumeration

A position leaves out the limit, the table and whether the enumerator is exhausted. Still an
enumerator that is resumed at a position saved from another one with the same bound answers all
further calls as that one does (`Enumerator.answers_resume`).

The table does not show in the answers: a tick looks up first derivations alone, and these are the
same in every table that has their rows (`tick_withTable`). For this the current derivation must be
one of the size reached, and its rows must be there (`Coherent`). An exhausted enumerator that is
resumed needs one tick to find that the next size is beyond the limit.
-/

namespace InvariantSearch

open Grammar

namespace Enumerator

variable {g : Grammar} {e f : Enumerator g} {T : Table} {o : Option Term} {d : Deriv}
  {ticks k n : Nat} {os : List (Option Term)}

/-- The answers to some calls, each within the given number of ticks. A call at the end is answered
as well, with nothing. -/
def answers (ticks : Nat) : (n : Nat) → Enumerator g → Option (List (Option Term) × Enumerator g)
  | 0, e => some ([], e)
  | n + 1, e => do
    let (o, e) ← e.next ticks
    let (os, e) ← answers ticks n e
    return (o :: os, e)

theorem answers_of_next {e₁ : Enumerator g} (hnext : e.next ticks = some (o, e₁)) (n : Nat) :
    e.answers ticks (n + 1) = (e₁.answers ticks n).map fun r => (o :: r.1, r.2) := by
  rw [answers, hnext]
  cases h : e₁.answers ticks n <;> simp [h]

theorem answers_of_next_none (hnext : e.next ticks = none) (n : Nat) :
    e.answers ticks (n + 1) = none := by
  rw [answers, hnext]
  rfl

/-- At the end all calls are answered with nothing. -/
theorem answers_of_exhausted (h : e.exhausted = true) (ticks n : Nat) :
    e.answers (ticks + 1) n = some (List.replicate n none, e) := by
  induction n with
  | zero => rfl
  | succ n ih =>
    rw [answers_of_next (next_of_exhausted h ticks), ih]
    rfl

/-! ## The state between calls -/

/-- The table is right, the current derivation is one of the size reached, and an exhausted
enumerator has left its last size. -/
structure Coherent (e : Enumerator g) : Prop where
  sound : e.table.Sound g
  current : ∀ d, e.current = some d →
    d ∈ g.derivations start e.size ∧ e.size ≤ e.table.rows.size
  ended : e.exhausted = true → e.current = none ∧ e.excludes e.size = true

theorem coherent_new (g : Grammar) (maxSize : Option Nat) : (new g maxSize).Coherent where
  sound := Table.sound_empty
  current _ h := by cases h
  ended h := by cases h

/-- A visit to a derivation of the size reached. -/
theorem coherent_visit (active : e.exhausted = false) (sound : e.table.Sound g)
    (hd : d ∈ g.derivations start e.size) (rows : e.size ≤ e.table.rows.size) :
    (e.visit d).2.Coherent := by
  obtain ⟨seen, hvisit⟩ := e.visit_eq d
  rw [hvisit]
  refine ⟨sound, fun c hc => ?_, fun hex => absurd (active.symm.trans hex) Bool.false_ne_true⟩
  obtain rfl := Option.some.inj hc
  exact ⟨hd, rows⟩

/-- What follows the current derivation is one of the size reached as well. -/
theorem Coherent.next?_mem (h : e.Coherent) (hnext : e.current.bind (·.next? g e.table) = some d) :
    d ∈ g.derivations start e.size ∧ e.size ≤ e.table.rows.size := by
  obtain ⟨c, hc, hd⟩ := Option.bind_eq_some_iff.1 hnext
  obtain ⟨hmem, rows⟩ := h.current c hc
  have hwalk : InvariantSearch.Follows (Deriv.next? g e.table) (g.derivations start e.size) none :=
    follows_next? (h.sound.below.mono rows)
  exact ⟨hwalk.mem_of_next hmem hd, rows⟩

theorem Coherent.tick (h : e.Coherent) : e.tick.2.Coherent := by
  rcases Bool.eq_false_or_eq_true e.exhausted with hex | active
  · rwa [tick_of_exhausted hex]
  · cases hnext : e.current.bind (·.next? g e.table) with
    | some d =>
      rw [tick_of_next active hnext]
      exact coherent_visit active h.sound (h.next?_mem hnext).1 (h.next?_mem hnext).2
    | none =>
      by_cases hexcluded : e.excludes (e.size + 1) = true
      · rw [tick_of_excluded active hnext hexcluded]
        exact ⟨h.sound, fun _ hd => (by cases hd), fun _ => ⟨rfl, hexcluded⟩⟩
      · have hincluded := Bool.eq_false_iff.2 hexcluded
        have sound := h.sound.cover (e.size + 1)
        have hrows := h.sound.lt_size_cover (e.size + 1)
        cases hfirst : (e.table.cover g (e.size + 1)).first start (e.size + 1) with
        | none =>
          rw [tick_of_first_none active hnext hincluded hfirst]
          exact ⟨sound, fun _ hd => (by cases hd),
            fun hex => absurd (active.symm.trans hex) Bool.false_ne_true⟩
        | some d =>
          rw [tick_of_first active hnext hincluded hfirst]
          rw [sound.below _ hrows] at hfirst
          exact coherent_visit (e := { e with
            size := e.size + 1, table := e.table.cover g (e.size + 1), seen := ∅ })
            active sound (List.mem_of_head? hfirst) hrows.le

theorem Coherent.next {e' : Enumerator g} (h : e.Coherent) (hnext : e.next ticks = some (o, e')) :
    e'.Coherent := by
  induction ticks generalizing e with
  | zero => cases hnext
  | succ ticks ih =>
    have htick := h.tick
    rw [Enumerator.next] at hnext
    split at hnext
    next t e₁ heq =>
      obtain ⟨-, rfl⟩ := Prod.mk.inj (Option.some.inj hnext)
      rwa [heq] at htick
    next e₁ heq =>
      rw [heq] at htick
      split at hnext
      next =>
        obtain ⟨-, rfl⟩ := Prod.mk.inj (Option.some.inj hnext)
        exact htick
      next => exact ih htick hnext

theorem Coherent.answers {e' : Enumerator g} (h : e.Coherent)
    (hanswers : e.answers ticks n = some (os, e')) : e'.Coherent ∧ e'.limit = e.limit := by
  induction n generalizing e os with
  | zero =>
    obtain ⟨-, rfl⟩ := Prod.mk.inj (Option.some.inj hanswers)
    exact ⟨h, rfl⟩
  | succ n ih =>
    obtain ⟨⟨o, e₁⟩, hnext, hanswers⟩ := Option.bind_eq_some_iff.1 hanswers
    obtain ⟨⟨os', e₂⟩, hrest, heq⟩ := Option.bind_eq_some_iff.1 hanswers
    obtain ⟨-, rfl⟩ := Prod.mk.inj (Option.some.inj heq)
    obtain ⟨hcoherent, hlimit⟩ := ih (h.next hnext) hrest
    exact ⟨hcoherent, hlimit.trans (kept_next hnext).limit⟩

/-! ## Other tables -/

/-- The enumerator with another table. -/
def withTable (e : Enumerator g) (T : Table) : Enumerator g := { e with table := T }

theorem visit_withTable (e : Enumerator g) (T : Table) (d : Deriv) :
    (e.withTable T).visit d = ((e.visit d).1, (e.visit d).2.withTable T) := by
  unfold visit withTable
  dsimp only
  split <;> rfl

/-- Tables that have the rows for it lead to the same derivation. -/
theorem Coherent.next?_withTable (h : e.Coherent) (h' : (e.withTable T).Coherent) :
    e.current.bind (·.next? g T) = e.current.bind (·.next? g e.table) := by
  refine Option.bind_congr fun d hd => ?_
  obtain ⟨hmem, rows⟩ := h.current d hd
  obtain ⟨ds, ds', hds⟩ := List.append_of_mem hmem
  have rows' : e.size ≤ T.rows.size := (h'.current d hd).2
  have sound : T.Sound g := h'.sound
  rw [next?_eq (h.sound.below.mono rows) hds, next?_eq (sound.below.mono rows') hds]

/-- A tick does the same with another table. -/
theorem Coherent.tick_withTable (h : e.Coherent) (h' : (e.withTable T).Coherent) :
    ∃ T', (e.withTable T).tick = (e.tick.1, e.tick.2.withTable T') := by
  rcases Bool.eq_false_or_eq_true e.exhausted with hex | active
  · rw [tick_of_exhausted hex]
    exact ⟨T, tick_of_exhausted (e := e.withTable T) hex⟩
  · have hsame := h.next?_withTable h'
    cases hnext : e.current.bind (·.next? g e.table) with
    | some d =>
      rw [tick_of_next active hnext]
      exact ⟨T, (tick_of_next (e := e.withTable T) active (hsame.trans hnext)).trans
        (e.visit_withTable T d)⟩
    | none =>
      have hnext' := hsame.trans hnext
      by_cases hexcluded : e.excludes (e.size + 1) = true
      · rw [tick_of_excluded active hnext hexcluded]
        exact ⟨T, tick_of_excluded (e := e.withTable T) active hnext' hexcluded⟩
      · have hincluded := Bool.eq_false_iff.2 hexcluded
        have sound : T.Sound g := h'.sound
        have hcover : (T.cover g (e.size + 1)).first start (e.size + 1) =
            (e.table.cover g (e.size + 1)).first start (e.size + 1) := by
          rw [(h.sound.cover _).below _ (h.sound.lt_size_cover _),
            (sound.cover _).below _ (sound.lt_size_cover _)]
        refine ⟨T.cover g (e.size + 1), ?_⟩
        cases hfirst : (e.table.cover g (e.size + 1)).first start (e.size + 1) with
        | none =>
          rw [tick_of_first_none active hnext hincluded hfirst]
          exact tick_of_first_none (e := e.withTable T) active hnext' hincluded
            (hcover.trans hfirst)
        | some d =>
          rw [tick_of_first active hnext hincluded hfirst]
          refine (tick_of_first (e := e.withTable T) active hnext' hincluded
            (hcover.trans hfirst)).trans ?_
          exact visit_withTable { e with
            size := e.size + 1, table := e.table.cover g (e.size + 1), seen := ∅ } _ d

/-- A call does the same with another table. -/
theorem Coherent.next_withTable (h : e.Coherent) (h' : (e.withTable T).Coherent) (ticks : Nat) :
    ∃ T', (e.withTable T).next ticks =
      (e.next ticks).map fun r => (r.1, r.2.withTable T') := by
  induction ticks generalizing e T with
  | zero => exact ⟨T, rfl⟩
  | succ ticks ih =>
    obtain ⟨T', htick⟩ := h.tick_withTable h'
    have hcoherent := h.tick
    have hcoherent' := h'.tick
    rw [htick] at hcoherent'
    cases ho : e.tick.1 with
    | some t =>
      refine ⟨T', ?_⟩
      rw [next_of_some ho, next_of_some (e := e.withTable T) (by rw [htick, ho]), htick]
      rfl
    | none =>
      cases hex : e.tick.2.exhausted with
      | true =>
        refine ⟨T', ?_⟩
        rw [next_of_end ho hex, next_of_end (e := e.withTable T) (by rw [htick, ho])
          (by rw [htick]; exact hex), htick]
        rfl
      | false =>
        obtain ⟨T'', hrest⟩ := ih hcoherent hcoherent'
        refine ⟨T'', ?_⟩
        rw [next_of_none ho hex, next_of_none (e := e.withTable T) (by rw [htick, ho])
          (by rw [htick]; exact hex), htick, hrest]

/-- The answers are the same with another table. -/
theorem Coherent.answers_withTable (h : e.Coherent) (h' : (e.withTable T).Coherent) (n : Nat) :
    ((e.withTable T).answers ticks n).map Prod.fst = (e.answers ticks n).map Prod.fst := by
  induction n generalizing e T with
  | zero => rfl
  | succ n ih =>
    obtain ⟨T', hsame⟩ := h.next_withTable h' ticks
    cases hnext : e.next ticks with
    | none =>
      rw [hnext] at hsame
      rw [answers_of_next_none hnext, answers_of_next_none hsame]
    | some r =>
      rw [hnext] at hsame
      rw [answers_of_next hnext, answers_of_next hsame, Option.map_map, Option.map_map]
      have hrest := congrArg (Option.map (r.1 :: ·)) (ih (h.next hnext) (h'.next hsame))
      rwa [Option.map_map, Option.map_map] at hrest

/-! ## Resuming -/

/-- An exhausted enumerator that is resumed finds the next size beyond the limit as well. -/
theorem answers_resume_of_exhausted (h : e.Coherent) (hex : e.exhausted = true)
    (hlimit : f.limit = e.limit) : ((f.resume e.position).answers ticks n).map Prod.fst =
      (e.answers ticks n).map Prod.fst := by
  cases ticks with
  | zero => cases n <;> rfl
  | succ ticks =>
    obtain ⟨hcurrent, hexcluded⟩ := h.ended hex
    have hnext : (f.resume e.position).current.bind
        (·.next? g (f.resume e.position).table) = none := by
      rw [show (f.resume e.position).current = none from hcurrent]
      rfl
    have hexcluded' : (f.resume e.position).excludes (e.size + 1) = true := by
      by_contra hincluded
      have hexcludes := excludes_mono (Bool.eq_false_iff.2 hincluded) (Nat.le_succ e.size)
      rw [excludes, show (f.resume e.position).limit = e.limit from hlimit, ← excludes,
        hexcluded] at hexcludes
      cases hexcludes
    have htick := tick_of_excluded (e := f.resume e.position) rfl hnext hexcluded'
    cases n with
    | zero => rfl
    | succ n =>
      have hend := next_of_end (e := f.resume e.position) (by rw [htick]) (by rw [htick]) ticks
      rw [answers_of_exhausted hex, answers_of_next hend,
        answers_of_exhausted (by rw [htick])]
      rfl

/-- An enumerator that is resumed where another one with the same bound was paused, after any
number of calls, answers all further calls as that one does. The second one may have been used and
resumed in any way before. A call that does not return within its ticks in one does not in the
other. -/
theorem answers_resume {maxSize : Option Nat} {ticks₀ : Nat}
    (first : (new g maxSize).answers ticks₀ k = some (os, e)) (second : f.Obtained g maxSize)
    (ticks n : Nat) : ((f.resume e.position).answers ticks n).map Prod.fst =
      (e.answers ticks n).map Prod.fst := by
  obtain ⟨h, hlimit⟩ := (coherent_new g maxSize).answers first
  have hlimit' : f.limit = e.limit := second.spec.2.trans hlimit.symm
  rcases Bool.eq_false_or_eq_true e.exhausted with hex | active
  · exact answers_resume_of_exhausted h hex hlimit'
  · have hresume : f.resume e.position = e.withTable (f.table.cover g e.size) := by
      simp [resume, position, withTable, hlimit', active]
    rw [hresume]
    refine h.answers_withTable ⟨second.spec.1.cover e.size, fun d hd => ?_, h.ended⟩ n
    exact ⟨(h.current d hd).1, (second.spec.1.lt_size_cover e.size).le⟩

/-- An enumerator that has returned the first literal is paused, and one that has done nothing goes
on in its place. -/
theorem answers_resume_literals : ∃ e,
    (new literals none).answers 1 1 = some ([some (.bool true)], e) ∧
      ∀ ticks n, (((new literals none).resume e.position).answers ticks n).map Prod.fst =
        (e.answers ticks n).map Prod.fst := by
  obtain ⟨e, hnext, -⟩ := next_literals none (by decide)
  have hanswers := answers_of_next hnext 0
  exact ⟨e, hanswers, answers_resume hanswers .new⟩

end Enumerator

end InvariantSearch
