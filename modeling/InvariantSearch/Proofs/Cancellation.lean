import InvariantSearch.Proofs.Interleaving

/-!
# Cancellation is final

However a session and the threads that cancel it are interleaved, a cancelled session stays
cancelled (`Steps.isCancelled_iff`), and no look at its status lets it go on (`Steps.of_looked`). A
question is answered only if the last look at the status does, after which no reply is read and
nothing is written (`endsWithLook_of_checkSat`, `endsWithLook_of_getValues`), and a command is
written only after such a look (`lastLook_of_wrote`). `cancellation_final` puts this together for
any sequence of calls.
-/

namespace InvariantSearch

variable {α : Type}

namespace Session

@[simp] theorem isCancelled_settle (s : Session) : s.settle.isCancelled = s.isCancelled := by
  obtain ⟨status, solver, unread, transcript, saved, cancellations, watched⟩ := s
  cases status <;> rfl

@[simp] theorem isCancelled_look (mark : Option Bool) (s : Session) :
    (s.look mark).isCancelled = s.isCancelled := by
  obtain ⟨status, solver, unread, transcript, saved, cancellations, watched⟩ := s
  cases status <;> cases mark <;> rfl

@[simp] theorem isCancelled_cancel (s : Session) : s.cancel.isCancelled = true := by
  obtain ⟨status, solver, unread, transcript, saved, cancellations, watched⟩ := s
  cases status with
  | running inCall => cases inCall <;> rfl
  | stopping | killed | terminated => rfl

theorem isCancelled_congr {s s' : Session} (h : s'.status = s.status) :
    s'.isCancelled = s.isCancelled := by
  unfold isCancelled
  rw [h]

end Session

/-! ## Once and for all -/

/-- The event is one after which a session is cancelled: a cancellation, or that it is given up. -/
def Event.Stops (event : Event) : Prop := event = .cancel ∨ event = .finished

/-- A step never makes a cancelled session go on. -/
theorem Step.isCancelled_iff {x y : Thread α × Session} {event : Event} (h : Step x event y) :
    y.2.isCancelled = true ↔ x.2.isCancelled = true ∨ event.Stops := by
  cases h with
  | cancel => simp [Event.Stops]
  | outside _ h => simp [Event.Stops, Session.isCancelled_congr h]
  | turn h =>
    cases h with
    | await => simp [Event.Stops]
    | finish p s => exact iff_of_true rfl (.inr (.inr rfl))
    | look => simp [Event.Stops]
    | write e p s => exact (or_iff_left (by simp [Event.Stops])).symm
    | work f hf next s => simp [Event.Stops, Session.isCancelled_congr (hf s)]
    | yield => simp [Event.Stops]

theorem Step.of_looked {x y : Thread α × Session} (h : Step x (.looked true) y) :
    x.2.isCancelled = false := by
  generalize hevent : Event.looked true = event at h
  cases h with
  | cancel | outside => cases hevent
  | turn h =>
    cases h with
    | look mark next s => simpa using hevent.symm
    | finish | write | work | yield | await => cases hevent

namespace Steps

variable {x y : Thread α × Session} {events before after : List Event}

/-- A session is cancelled in the end if and only if it was before or became so on the way. -/
theorem isCancelled_iff (h : Steps x events y) :
    y.2.isCancelled = true ↔ x.2.isCancelled = true ∨ ∃ event ∈ events, event.Stops := by
  induction h with
  | nil => simp
  | cons h _ ih =>
    rw [ih, h.isCancelled_iff]
    simp only [List.mem_cons, or_and_right, exists_or, exists_eq_left, or_assoc]

/-- Before a look that lets the session go on there is no cancellation. -/
theorem of_looked (h : Steps x (before ++ .looked true :: after) y) :
    x.2.isCancelled = false ∧ .cancel ∉ before := by
  obtain ⟨z, hbefore, hafter⟩ := h.exists_of_append
  cases hafter with
  | cons hlook _ =>
    have hrunning := hlook.of_looked
    refine ⟨Bool.eq_false_iff.2 fun hx => ?_, fun hcancel => ?_⟩
    · exact Bool.eq_false_iff.1 hrunning (hbefore.isCancelled_iff.2 (.inl hx))
    · exact Bool.eq_false_iff.1 hrunning
        (hbefore.isCancelled_iff.2 (.inr ⟨.cancel, hcancel, .inl rfl⟩))

end Steps

/-! ## The last look -/

/-- The last look at the status finds that the session goes on; it comes after `before`. -/
def LastLook (events before : List Event) : Prop :=
  ∃ after, events = before ++ .looked true :: after ∧ ∀ goesOn, .looked goesOn ∉ after

theorem not_looked_of_isForeign {events : List Event} (h : ∀ event ∈ events, event.IsForeign)
    (goesOn : Bool) : .looked goesOn ∉ events := by
  intro hmem
  rcases h _ hmem with h | h <;> cases h

/-- Nothing is left to do for the thread but work that leaves alone what passes between the session
and its solver. So it does not look at the status, writes nothing and reads no reply. -/
inductive Thread.Silent : Thread α → Prop
  | done (r : Except SolverError α) : Silent (.done r)
  | work {f : Session → Session} {hf : ∀ s, (f s).status = s.status} {next : Session → Thread α}
      (hexchange : ∀ s, (f s).exchange = s.exchange) (hnext : ∀ s, (next s).Silent) :
      Silent (.work f hf next)

/-- A silent thread stays silent, and all that it does is such work. -/
theorem Steps.of_silent {x y : Thread α × Session} {events : List Event} (h : Steps x events y)
    (hx : x.1.Silent) : y.1.Silent ∧ ∀ event ∈ events, event.IsForeign ∨ event = .worked := by
  induction h with
  | nil => exact ⟨hx, by simp⟩
  | @cons x y z event events h _ ih =>
    obtain ⟨p, s⟩ := x
    have hfirst : y.1.Silent ∧ (event.IsForeign ∨ event = .worked) := by
      cases h with
      | cancel => exact ⟨hx, .inl (.inl rfl)⟩
      | outside => exact ⟨hx, .inl (.inr rfl)⟩
      | turn h =>
        cases hx with
        | done => cases h
        | work _ hnext =>
          cases h
          exact ⟨hnext _, .inr rfl⟩
    obtain ⟨hz, hevents⟩ := ih hfirst.1
    exact ⟨hz, List.forall_mem_cons.2 ⟨hfirst.2, hevents⟩⟩

/-- The steps end with a look at the status which finds that the session goes on; it comes after
`before`. Every reply is read by then, and every command is written: what is left of the thread is
silent. -/
def EndsWithLook (x : Thread α × Session) (events before : List Event) (y : Thread α × Session) :
    Prop :=
  ∃ after q s, events = before ++ .looked true :: after ∧
    Steps x (before ++ [.looked true]) (q, s) ∧ q.Silent ∧ Steps (q, s) after y

namespace EndsWithLook

variable {x y z : Thread α × Session} {events events' before : List Event}

theorem lastLook (h : EndsWithLook x events before y) : LastLook events before := by
  obtain ⟨after, q, s, rfl, -, hq, hafter⟩ := h
  refine ⟨after, rfl, fun goesOn hmem => ?_⟩
  rcases (hafter.of_silent hq).2 _ hmem with (h | h) | h <;> cases h

theorem prepend (h : EndsWithLook y events before z) (h' : Steps x events' y) :
    EndsWithLook x (events' ++ events) (events' ++ before) z := by
  obtain ⟨after, q, s, rfl, hbefore, hq, hafter⟩ := h
  refine ⟨after, q, s, (List.append_assoc ..).symm, ?_, hq, hafter⟩
  rw [List.append_assoc]
  exact h'.append hbefore

end EndsWithLook

section Calls

variable {s s' : Session} {events : List Event} {x : Thread α × Session}

open Thread

/-- If silent work comes after a required look, then the result does only if the look finds that the
session goes on. -/
theorem endsWithLook_of_require {mark : Option Bool} {f : Unit → Thread α} (hf : (f ()).Silent)
    {a : α} (h : Steps (require mark >>= f, s) events (.done (.ok a), s')) :
    ∃ before, EndsWithLook (require mark >>= f, s) events before (.done (.ok a), s') := by
  rcases h.turn_cases with
    ⟨hdone, -⟩ | ⟨before, event, after, s₁, y, rfl, -, hwait, hturn, hafter⟩
  · cases hdone
  · refine ⟨before, after, f (), s₁.look mark, ?_⟩
    have hlook := hwait.append (.cons (.turn hturn) (.nil _))
    cases hturn with
    | look =>
      cases hcancelled : (s₁.look mark).isCancelled with
      | true =>
        rw [hcancelled] at hafter
        cases hafter.of_done.1
      | false =>
        rw [hcancelled] at hlook hafter
        exact ⟨rfl, hlook, hf, hafter⟩

/-- Satisfiability is answered only if the look at the end of the call lets the session go on. -/
theorem endsWithLook_of_checkSat {answer : Satisfiability}
    (h : Steps (checkSat, s) events (.done (.ok answer), s')) :
    ∃ before, EndsWithLook (checkSat, s) events before (.done (.ok answer), s') := by
  obtain ⟨_, s₁, events₁, rest, rfl, hsend, h⟩ := h.exists_of_bind
  obtain ⟨_, s₂, events₂, rest, rfl, hbegin, h⟩ := h.exists_of_bind
  obtain ⟨reply, s₃, events₃, rest, rfl, hreply, h⟩ := h.exists_of_bind
  obtain ⟨answer', s₄, events₄, rest, rfl, hread, h⟩ := h.exists_of_bind
  obtain ⟨before, hend⟩ := endsWithLook_of_require (by
    cases answer' with
    | sat | unsat => exact .done _
    | unknown reason => exact .work exchange_save fun _ => .done _) h
  exact ⟨_, (((hend.prepend (hread.bind _)).prepend (hreply.bind _)).prepend
    (hbegin.bind _)).prepend (hsend.bind _)⟩

/-- Values are answered only if the look at the end of the call lets the session go on. -/
theorem endsWithLook_of_getValues {terms : List Sexp} (hterms : terms ≠ [])
    {values : List (Sexp × Sexp)} (h : Steps (getValues terms, s) events (.done (.ok values), s')) :
    ∃ before, EndsWithLook (getValues terms, s) events before (.done (.ok values), s') := by
  rw [getValues, if_neg (by simpa using hterms)] at h ⊢
  obtain ⟨_, s₁, events₁, rest, rfl, hbegin, h⟩ := h.exists_of_bind
  obtain ⟨reply, s₂, events₂, rest, rfl, hask, h⟩ := h.exists_of_bind
  obtain ⟨before, hend⟩ := endsWithLook_of_require (by
    cases reply.items?.bind (·.mapM Session.pair?) with
    | none => exact .done _
    | some values => exact .done _) h
  exact ⟨_, (hend.prepend (hask.bind _)).prepend (hbegin.bind _)⟩

/-- While a command is written, nothing looks at the status. -/
theorem not_looked_of_write {e : Sexp} {x : Thread Unit × Session}
    (h : Steps (.write e (pure ()), s) events x) (goesOn : Bool) : .looked goesOn ∉ events := by
  rcases h.turn_cases with
    ⟨-, hforeign⟩ | ⟨before, event, after, s₁, y, rfl, hbefore, -, hturn, hafter⟩
  · exact not_looked_of_isForeign hforeign goesOn
  · cases hturn with
    | write =>
      have hbefore := not_looked_of_isForeign hbefore goesOn
      have hafter := not_looked_of_isForeign hafter.of_done.2 goesOn
      simp [hbefore, hafter]

/-- A command is written only after the look that lets the session go on. -/
theorem lastLook_of_wrote {e e' : Sexp} {x : Thread Unit × Session} (h : Steps (send e, s) events x)
    (hwrote : .wrote e' ∈ events) : ∃ before, LastLook events before ∧ .wrote e' ∉ before := by
  have hforeign {events : List Event} (h : ∀ event ∈ events, event.IsForeign) :
      .wrote e' ∉ events := fun hmem => by
    rcases h _ hmem with h | h <;> cases h
  rcases h.turn_cases with
    ⟨-, hevents⟩ | ⟨before, event, after, s₁, y, rfl, hbefore, -, hturn, hafter⟩
  · exact absurd hwrote (hforeign hevents)
  · cases hturn with
    | look =>
      cases hcancelled : (s₁.look none).isCancelled with
      | false =>
        rw [hcancelled] at hafter
        exact ⟨before, ⟨after, rfl, not_looked_of_write hafter⟩, hforeign hbefore⟩
      | true =>
        rw [hcancelled] at hafter
        have hafter := hforeign hafter.of_done.2
        simp [hforeign hbefore, hafter] at hwrote

end Calls

/-- An action whose thread needs a last look at the status has no answer in a cancelled session. -/
theorem ne_ok_of_isCancelled {p : Thread α} {m : SessionM α} (hp : p.Performs m)
    (hlook : ∀ s events a s', Steps (p, s) events (.done (.ok a), s') →
      ∃ before, EndsWithLook (p, s) events before (.done (.ok a), s'))
    {s s' : Session} (hs : s.isCancelled = true) (a : α) : m.run.run s ≠ (.ok a, s') := by
  intro hrun
  obtain ⟨events, hsteps⟩ := p.exists_steps s
  rw [hp s, hrun] at hsteps
  obtain ⟨before, hend⟩ := hlook s events a s' hsteps
  obtain ⟨after, rfl, -⟩ := hend.lastLook
  exact Bool.eq_false_iff.1 hsteps.of_looked.1 hs

theorem Session.checkSat_ne_ok {s s' : Session} (hs : s.isCancelled = true)
    (answer : Satisfiability) : Session.checkSat.run.run s ≠ (.ok answer, s') :=
  ne_ok_of_isCancelled Thread.performs_checkSat (fun _ _ _ _ => endsWithLook_of_checkSat) hs answer

theorem Session.getValues_ne_ok {terms : List Sexp} (hterms : terms ≠ []) {s s' : Session}
    (hs : s.isCancelled = true) (values : List (Sexp × Sexp)) :
    (Session.getValues terms).run.run s ≠ (.ok values, s') :=
  ne_ok_of_isCancelled (Thread.performs_getValues terms)
    (fun _ _ _ _ => endsWithLook_of_getValues hterms) hs values

/-! ## Sequences of calls -/

/-- A call on a session. -/
inductive Call where
  | send (e : Sexp)
  | checkSat
  | getValues (terms : List Sexp)
  | getInfo (key : String)
  | close

/-- What the thread does that makes a call; its answer is left out here. -/
def Call.thread : Call → Thread Unit
  | send e => Thread.send e
  | checkSat => do let _ ← Thread.checkSat
  | getValues terms => do let _ ← Thread.getValues terms
  | getInfo key => do let _ ← Thread.getInfo key
  | close => Thread.close

/-- Calls are made in order, whether they succeed or not, with anything in between. -/
inductive Calls : List Call → Session → List Event → Session → Prop
  | nil (s : Session) : Calls [] s [] s
  | cons {call : Call} {calls : List Call} {s s₁ s₂ : Session} {r : Except SolverError Unit}
      {events events' : List Event} (h : Steps (call.thread, s) events (.done r, s₁))
      (hs : Calls calls s₁ events' s₂) : Calls (call :: calls) s (events ++ events') s₂

section

variable {calls : List Call} {s₀ s : Session} {past : List Event}

theorem Calls.isCancelled_iff (h : Calls calls s₀ past s) :
    s.isCancelled = true ↔ s₀.isCancelled = true ∨ ∃ event ∈ past, event.Stops := by
  induction h with
  | nil => simp
  | cons h _ ih =>
    rw [ih, h.isCancelled_iff]
    simp only [List.mem_append, or_and_right, exists_or, or_assoc]

/-- Where the last look at the status lets the session go on, there is no cancellation before it. -/
theorem Calls.of_lastLook (h : Calls calls s₀ past s) {x y : Thread α × Session} (hx : x.2 = s)
    {events before : List Event} (hsteps : Steps x events y) (hlast : LastLook events before) :
    s₀.isCancelled = false ∧ .cancel ∉ past ++ before := by
  obtain ⟨after, rfl, -⟩ := hlast
  obtain ⟨hrunning, hbefore⟩ := hsteps.of_looked
  rw [hx, Bool.eq_false_iff, Ne, h.isCancelled_iff, not_or] at hrunning
  refine ⟨Bool.eq_false_iff.2 hrunning.1, fun hmem => ?_⟩
  rcases List.mem_append.1 hmem with hmem | hmem
  · exact hrunning.2 ⟨.cancel, hmem, .inl rfl⟩
  · exact hbefore hmem

/-- Let any calls be made on a session, with cancellations and whatever the solver does in between,
and then one more. At all times in this call the session is cancelled if and only if it was so at
first, or a cancellation came or it was given up since then; and once it is cancelled it stays so.
The call answers whether the assertions can hold, or gives values, only if its last look at the
status finds that the session goes on, and no cancellation came before that look; after the look no
reply is read and nothing is written. A command is sent only if none came before the look at the
status that sending begins with. In particular a cancelled session gives neither of these answers
in the run where cancellations arrive as they are due. -/
theorem cancellation_final (h : Calls calls s₀ past s) :
    (∀ call events x, Steps (Call.thread call, s) events x →
      (x.2.isCancelled = true ↔
        s₀.isCancelled = true ∨ ∃ event ∈ past ++ events, event.Stops) ∧
      ∀ events' y, Steps x events' y → x.2.isCancelled = true → y.2.isCancelled = true) ∧
    (∀ events answer s', Steps (Thread.checkSat, s) events (.done (.ok answer), s') →
      ∃ before, EndsWithLook (Thread.checkSat, s) events before (.done (.ok answer), s') ∧
        LastLook events before ∧ s₀.isCancelled = false ∧ .cancel ∉ past ++ before) ∧
    (∀ terms, terms ≠ [] → ∀ events values s',
      Steps (Thread.getValues terms, s) events (.done (.ok values), s') →
      ∃ before, EndsWithLook (Thread.getValues terms, s) events before (.done (.ok values), s') ∧
        LastLook events before ∧ s₀.isCancelled = false ∧ .cancel ∉ past ++ before) ∧
    (∀ e events x, Steps (Thread.send e, s) events x → ∀ e', .wrote e' ∈ events →
      ∃ before, LastLook events before ∧ .wrote e' ∉ before ∧ s₀.isCancelled = false ∧
        .cancel ∉ past ++ before) ∧
    (s.isCancelled = true → ∀ s', (∀ answer, Session.checkSat.run.run s ≠ (.ok answer, s')) ∧
      ∀ terms, terms ≠ [] → ∀ values, (Session.getValues terms).run.run s ≠ (.ok values, s')) := by
  refine ⟨fun call events x hsteps => ⟨?_, fun events' y hlater hx => ?_⟩,
    fun events answer s' hsteps => ?_, fun terms hterms events values s' hsteps => ?_,
    fun e events x hsteps e' hwrote => ?_,
    fun hs s' => ⟨fun answer => ?_, fun terms hterms values => ?_⟩⟩
  · rw [hsteps.isCancelled_iff, h.isCancelled_iff]
    simp only [List.mem_append, or_and_right, exists_or, or_assoc]
  · exact hlater.isCancelled_iff.2 (.inl hx)
  · obtain ⟨before, hend⟩ := endsWithLook_of_checkSat hsteps
    exact ⟨before, hend, hend.lastLook, h.of_lastLook rfl hsteps hend.lastLook⟩
  · obtain ⟨before, hend⟩ := endsWithLook_of_getValues hterms hsteps
    exact ⟨before, hend, hend.lastLook, h.of_lastLook rfl hsteps hend.lastLook⟩
  · obtain ⟨before, hlast, hbefore⟩ := lastLook_of_wrote hsteps hwrote
    exact ⟨before, hlast, hbefore, h.of_lastLook rfl hsteps hlast⟩
  · exact Session.checkSat_ne_ok hs answer
  · exact Session.getValues_ne_ok hterms hs values

end

/-- A session whose solver has one reply. -/
def answeringOnce : Session :=
  { status := .running false
    solver := .new [.text "sat"] false
    unread := []
    transcript := none
    saved := []
    cancellations := []
    watched := false }

/-- A required look fails in a cancelled session. -/
theorem steps_require_of_isCancelled (f : Unit → Thread α) (mark : Option Bool) {s : Session}
    (hs : s.isCancelled = true) : Steps (Thread.require mark >>= f, s) [.looked false]
      (.done (.error .killed), s.look mark) := by
  have hlook := Turn.bind (Turn.look mark
    (fun goesOn => if goesOn then pure () else Thread.fail .killed) s) f
  rw [Session.isCancelled_look, hs] at hlook
  exact .cons (.turn hlook) (.nil _)

/-- The reply `sat` is read, and all that is left is the end of the call. -/
theorem exists_reading_answeringOnce : ∃ reading s,
    Steps (Thread.checkSat, answeringOnce) reading
      (do Thread.require (some false); return .sat, s) := by
  let s₁ := ((Thread.send (.app "check-sat" [])).perform answeringOnce).2
  let s₂ := ((Thread.require (some true)).perform s₁).2
  obtain ⟨sending, hsend⟩ : ∃ events, Steps (Thread.checkSat, answeringOnce) events (_, s₁) :=
    Thread.exists_steps_bind (a := ()) _ (by decide +kernel)
  obtain ⟨beginning, hbegin⟩ : ∃ events,
      Steps (Thread.require (some true) >>= _, s₁) events (_, s₂) :=
    Thread.exists_steps_bind (a := ()) _ (by decide +kernel)
  obtain ⟨receiving, hreceive⟩ : ∃ events, Steps (Thread.readReply >>= _, s₂) events (_, _) :=
    Thread.exists_steps_bind (a := "sat") _ (by decide +kernel)
  exact ⟨_, _, (hsend.append hbegin).append hreceive⟩

/-- A session is cancelled just before the end of a call, when the reply `sat` is read already. The
call fails, the session stays cancelled, and no later call answers. -/
theorem cancellation_final_answeringOnce : ∃ reading s₁ s,
    Steps (Thread.checkSat, answeringOnce) reading
      (do Thread.require (some false); return .sat, s₁) ∧
    Steps (Thread.checkSat, answeringOnce) (reading ++ [.cancel, .looked false])
      (.done (.error .killed), s) ∧
    s.isCancelled = true ∧
    ∀ events answer s', ¬Steps (Thread.checkSat, s) events (.done (.ok answer), s') := by
  obtain ⟨reading, s₁, hread⟩ := exists_reading_answeringOnce
  have hkilled := hread.append (.cons (.cancel _ s₁)
    (steps_require_of_isCancelled _ (some false) s₁.isCancelled_cancel))
  have hcalls : Calls [.checkSat] answeringOnce _ (s₁.cancel.look (some false)) :=
    .cons (hkilled.bind fun _ => pure ()) (.nil _)
  obtain ⟨hstays, hanswers, -⟩ := cancellation_final hcalls
  refine ⟨reading, s₁, _, hread, hkilled, ?_, fun events answer s' hsteps => ?_⟩
  · exact (hstays .checkSat [] _ (.nil _)).1.2 (.inr ⟨.cancel, by simp, .inl rfl⟩)
  · obtain ⟨before, -, -, -, hcancel⟩ := hanswers events answer s' hsteps
    simp at hcancel

end InvariantSearch
