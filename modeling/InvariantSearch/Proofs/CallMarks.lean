import InvariantSearch.Proofs.Cancellation

/-!
# The mark of a call

A session is marked as in a call while a question for satisfiability or for values goes on. A look
at the status sets the mark at the beginning of such a call and removes it at the end, and a call
that fails in between leaves it (`marks_of_calls`). Then a cancellation kills the solver at once,
although nothing is going on (`marked_after_error`). The next look at the status ends the session in
either case, and finds no difference (`Session.mayGoOn_cancel`).

`Thread.Leaves` is the weakest precondition of a thread for the mark that it leaves in a session
that is not cancelled. It holds of whatever other threads and the solver do in between
(`Steps.leaves`).
-/

namespace InvariantSearch

variable {α β : Type}

/-! ## The mark that a thread leaves -/

namespace Thread

/-- If a session with the mark is not cancelled until the end of the thread, the result and the mark
at the end satisfy the postcondition. -/
def Leaves (P : Except SolverError α → Bool → Prop) : Thread α → Bool → Prop
  | done r, inCall => P r inCall
  | look mark next, inCall => (next true).Leaves P (mark.getD inCall)
  | finish _, _ => True
  | write _ next, inCall => next.Leaves P inCall
  | work _ _ next, inCall => ∀ s, (next s).Leaves P inCall
  | yield next, inCall => ∀ s, (next s).Leaves P inCall
  | await _, _ => True

variable {P : Except SolverError α → Bool → Prop} {Q : Except SolverError β → Bool → Prop}
  {p : Thread α} {f : α → Thread β} {inCall : Bool}

/-- What a thread leaves satisfies what follows from it. -/
theorem Leaves.imp {P' : Except SolverError α → Bool → Prop} (hP : ∀ r b, P r b → P' r b)
    (h : p.Leaves P inCall) : p.Leaves P' inCall := by
  induction p generalizing inCall with
  | done r => exact hP r inCall h
  | look mark next ih => exact ih true h
  | finish | await => trivial
  | write e next ih => exact ih h
  | work g hg next ih | yield next ih => exact fun s => ih s (h s)

/-- One thread after another. -/
theorem Leaves.bind (h : p.Leaves (fun r b => match r with
    | .ok a => (f a).Leaves Q b
    | .error e => Q (.error e) b) inCall) : (p >>= f).Leaves Q inCall := by
  show (p.bind f).Leaves Q inCall
  induction p generalizing inCall with
  | done r =>
    cases r with
    | ok a => exact h
    | error e => exact h
  | look mark next ih => exact ih true h
  | finish | await => trivial
  | write e next ih => exact ih h
  | work g hg next ih | yield next ih => exact fun s => ih s (h s)

/-- The thread keeps the mark. -/
abbrev Keeps (p : Thread α) : Prop := ∀ inCall, p.Leaves (fun _ b => b = inCall) inCall

theorem keeps_done (r : Except SolverError α) : (done r).Keeps := fun _ => rfl

theorem Keeps.bind (h : p.Keeps) (hf : ∀ a, (f a).Keeps) : (p >>= f).Keeps := by
  intro inCall
  refine Leaves.bind ((h inCall).imp fun r b hb => ?_)
  cases r with
  | ok a => exact hb ▸ hf a b
  | error e => exact hb

/-- What keeps the mark and comes first can be left out. -/
theorem Leaves.bind_keeps (h : p.Keeps) (herror : ∀ e, Q (.error e) inCall)
    (hf : ∀ a, (f a).Leaves Q inCall) : (p >>= f).Leaves Q inCall := by
  refine Leaves.bind ((h inCall).imp fun r b hb => ?_)
  subst hb
  cases r with
  | ok a => exact hf a
  | error e => exact herror e

/-! ### The actions of a session -/

theorem leaves_require_bind {f : Unit → Thread β} {mark : Option Bool}
    (h : (f ()).Leaves Q (mark.getD inCall)) : (require mark >>= f).Leaves Q inCall := h

theorem leaves_send_bind {e : Sexp} {f : Unit → Thread β} (h : (f ()).Leaves Q inCall) :
    (send e >>= f).Leaves Q inCall := h

theorem keeps_require : (require none).Keeps := fun _ => rfl

theorem keeps_send (e : Sexp) : (send e).Keeps := fun _ => rfl

theorem keeps_outputEnded : (outputEnded : Thread α).Keeps := fun _ _ => rfl

theorem keeps_readReply : readReply.Keeps := by
  intro inCall s
  show (if _ then _ else _ : Thread String).Leaves _ inCall
  split
  next => rfl
  next =>
    intro s₁ s₂
    dsimp only
    split
    next => rfl
    next =>
      split
      next =>
        split
        next => trivial
        next => rfl
      next => exact keeps_outputEnded inCall

theorem keeps_ask (e : Sexp) : (ask e).Keeps := by
  refine (keeps_send e).bind fun _ => keeps_readReply.bind fun reply => ?_
  cases Sexp.parse reply with
  | ok e => exact keeps_done _
  | error err => exact keeps_done _

theorem keeps_getInfo (key : String) : (getInfo key).Keeps := by
  refine (keeps_ask _).bind fun reply => ?_
  cases Session.pair? reply with
  | none => exact keeps_done _
  | some pair =>
    dsimp only
    split
    · exact keeps_done _
    · exact keeps_done _

theorem keeps_readSatisfiability (reply : String) : (readSatisfiability reply).Keeps := by
  unfold readSatisfiability
  split
  next => exact keeps_done _
  next => exact keeps_done _
  next => exact (keeps_getInfo _).bind fun _ => keeps_done _
  next => exact keeps_require.bind fun _ => keeps_done _

/-- A question for satisfiability leaves the mark just if it fails. -/
theorem leaves_checkSat (inCall : Bool) :
    checkSat.Leaves (fun r b => b = true ↔ ∃ e, r = .error e) inCall := by
  have hfails (e : SolverError) : true = true ↔
      ∃ e', (.error e : Except SolverError Satisfiability) = .error e' := iff_of_true rfl ⟨e, rfl⟩
  have hanswers (answer : Satisfiability) : false = true ↔
      ∃ e, (.ok answer : Except SolverError Satisfiability) = .error e := by simp
  refine leaves_send_bind (leaves_require_bind ?_)
  refine .bind_keeps keeps_readReply hfails fun reply => ?_
  refine .bind_keeps (keeps_readSatisfiability reply) hfails fun answer => ?_
  refine leaves_require_bind ?_
  cases answer with
  | sat | unsat => exact hanswers _
  | unknown reason => exact fun _ => hanswers _

/-- A question for values leaves the mark if it fails, unless a tree was read that is no list of
pairs. -/
theorem leaves_getValues {terms : List Sexp} (hterms : terms ≠ []) (inCall : Bool) :
    (getValues terms).Leaves (fun r b => b = true ∧ (∃ e, r = .error e) ∨
      b = false ∧ ((∃ values, r = .ok values) ∨
        ∃ reply, Session.pairs? reply = none ∧ r = .error (.badReply reply.render))) inCall := by
  rw [getValues, if_neg (by simpa using hterms)]
  refine leaves_require_bind ?_
  refine .bind_keeps (keeps_ask _) (fun e => .inl ⟨rfl, e, rfl⟩) fun reply => ?_
  refine leaves_require_bind ?_
  cases hvalues : reply.items?.bind (·.mapM Session.pair?) with
  | some values => exact .inr ⟨rfl, .inl ⟨values, rfl⟩⟩
  | none => exact .inr ⟨rfl, .inr ⟨reply, hvalues, rfl⟩⟩

end Thread

/-! ## Interleavings -/

open Thread

/-- A turn in a session that is not cancelled then leads on to what the postcondition asks for. -/
theorem Turn.leaves {P : Except SolverError α → Bool → Prop} {p q : Thread α} {s s' : Session}
    {event : Event} {inCall : Bool} (h : Turn (p, s) event (q, s'))
    (hs : s.status = .running inCall) (hs' : s'.isCancelled = false) (hp : p.Leaves P inCall) :
    ∃ inCall', s'.status = .running inCall' ∧ q.Leaves P inCall' := by
  cases h with
  | look mark next =>
    have hsettle : s.settle = s := by rw [Session.settle, hs]
    have hcancelled : s.isCancelled = false := by rw [Session.isCancelled, hs]
    rw [Session.isCancelled_look, hcancelled]
    cases mark with
    | none => exact ⟨inCall, by rw [look_none, hsettle, hs], hp⟩
    | some mark => exact ⟨mark, by simp [look_some, hsettle, hcancelled], hp⟩
  | finish => cases hs'
  | write e => exact ⟨inCall, hs, hp⟩
  | work f hf next => exact ⟨inCall, (hf s).trans hs, hp s⟩
  | yield next => exact ⟨inCall, hs, hp s⟩
  | await => simp at hs'

/-- Whatever happens between the turns, what a thread leaves is as the postcondition says. -/
theorem Steps.leaves {P : Except SolverError α → Bool → Prop} {p : Thread α} {s s' : Session}
    {events : List Event} {r : Except SolverError α} {inCall : Bool}
    (h : Steps (p, s) events (.done r, s')) (hs : s.status = .running inCall)
    (hs' : s'.isCancelled = false) (hp : p.Leaves P inCall) :
    ∃ inCall', s'.status = .running inCall' ∧ P r inCall' := by
  generalize hstart : (p, s) = x at h
  generalize hend : ((.done r, s') : Thread α × Session) = y at h
  induction h generalizing p s inCall with
  | nil =>
    subst hend
    obtain ⟨rfl, rfl⟩ := Prod.mk.inj hstart
    exact ⟨inCall, hs, hp⟩
  | @cons _ y _ event events h hrest ih =>
    subst hstart hend
    obtain ⟨q, s₁⟩ := y
    have hs₁ : s₁.isCancelled = false := Bool.eq_false_iff.2 fun hcancelled =>
      Bool.eq_false_iff.1 hs' (hrest.isCancelled_iff.2 (.inl hcancelled))
    have hnext : ∃ inCall', s₁.status = .running inCall' ∧ q.Leaves P inCall' := by
      cases h with
      | turn h => exact h.leaves hs hs₁ hp
      | cancel => simp at hs₁
      | outside _ hstatus => exact ⟨inCall, hstatus.trans hs, hp⟩
    obtain ⟨inCall', hstatus, hq⟩ := hnext
    exact ih hstatus hq rfl rfl

/-- A session that is not cancelled in the end was not cancelled before. -/
theorem Steps.exists_running {x y : Thread α × Session} {events : List Event}
    (h : Steps x events y) (hy : y.2.isCancelled = false) :
    ∃ inCall, x.2.status = .running inCall := by
  have hx : x.2.isCancelled = false := Bool.eq_false_iff.2 fun hcancelled =>
    Bool.eq_false_iff.1 hy (h.isCancelled_iff.2 (.inl hcancelled))
  unfold Session.isCancelled at hx
  split at hx
  next inCall hstatus => exact ⟨inCall, hstatus⟩
  next => cases hx

/-! ## Sequences of calls -/

namespace Call

/-- The call marks the session while it goes on. -/
def isLong : Call → Bool
  | checkSat => true
  | getValues terms => !terms.isEmpty
  | send _ | getInfo _ | close => false

/-- A session is marked by a call only if the call is long and fails. -/
theorem leaves_thread (call : Call) : call.thread.Leaves
    (fun r b => b = true → call.isLong = true ∧ ∃ e, r = .error e) false := by
  cases call with
  | send e =>
    refine (keeps_send e false).imp fun r b hb => ?_
    subst hb
    exact fun hmarked => by cases hmarked
  | checkSat =>
    refine .bind ((leaves_checkSat false).imp fun r b hb => ?_)
    cases r with
    | ok answer => exact fun hmarked => by simpa using hb.1 hmarked
    | error e => exact fun _ => ⟨rfl, e, rfl⟩
  | getValues terms =>
    by_cases hterms : terms = []
    · subst hterms
      exact fun hmarked => by cases hmarked
    · refine .bind ((leaves_getValues hterms false).imp fun r b hb => ?_)
      have hlong : (getValues terms).isLong = true := by simpa [isLong] using hterms
      cases r with
      | ok values =>
        intro hmarked
        subst hmarked
        simp at hb
      | error e => exact fun _ => ⟨hlong, e, rfl⟩
  | getInfo key =>
    refine .bind ((keeps_getInfo key false).imp fun r b hb => ?_)
    subst hb
    cases r <;> exact fun hmarked => by cases hmarked
  | close => exact fun _ _ => trivial

end Call

/-- A session that is marked between calls, and was not at first, was marked by a long call that
failed. -/
theorem Calls.exists_failed {calls : List Call} {s₀ s : Session} {past : List Event}
    (h : Calls calls s₀ past s) (h₀ : s₀.status ≠ .running true) (hs : s.status = .running true) :
    ∃ before call after past₁ events past₂ s₁ s₂ e, calls = before ++ call :: after ∧
      past = past₁ ++ (events ++ past₂) ∧ call.isLong = true ∧ Calls before s₀ past₁ s₁ ∧
      Steps (call.thread, s₁) events (.done (.error e), s₂) ∧ s₂.status = .running true ∧
      Calls after s₂ past₂ s := by
  induction h with
  | nil => exact absurd hs h₀
  | @cons call calls s₀ s₁ s r events past hcall hcalls ih =>
    by_cases hmarked : s₁.status = .running true
    · have hrunning : s₁.isCancelled = false := by rw [Session.isCancelled, hmarked]
      obtain ⟨inCall, hstatus⟩ := hcall.exists_running hrunning
      cases inCall with
      | true => exact absurd hstatus h₀
      | false =>
        obtain ⟨b, hb, hleaves⟩ := hcall.leaves hstatus hrunning call.leaves_thread
        rw [hmarked] at hb
        obtain ⟨hlong, e, rfl⟩ := hleaves (SessionStatus.running.inj hb).symm
        exact ⟨[], call, calls, [], events, past, s₀, s₁, e, rfl, rfl, hlong, .nil s₀, hcall,
          hmarked, hcalls⟩
    · obtain ⟨before, call', after, past₁, events', past₂, s₂, s₃, e, rfl, rfl, hlong, hbefore,
        hfailed, hafter⟩ := ih hmarked hs
      exact ⟨call :: before, call', after, events ++ past₁, events', past₂, s₂, s₃, e, rfl,
        (List.append_assoc ..).symm, hlong, .cons hcall hbefore, hfailed, hafter⟩

theorem Session.cancel_of_marked {s : Session} (hs : s.status = .running true) :
    s.cancel = { s with status := .killed, solver := s.solver.kill } := by
  rw [Session.cancel, hs]

/-- The next look at the status cannot tell whether the solver was killed at once. -/
theorem Session.mayGoOn_cancel {s : Session} (hs : s.status = .running true) :
    mayGoOn.run s.cancel = mayGoOn.run { s with status := .running false }.cancel := by
  have hlook (t : Session) :
      mayGoOn.run t = (!t.arrive.settle.isCancelled, t.arrive.settle) := rfl
  have harrive : s.cancel.arrive.settle =
      { s with status := .running false }.cancel.arrive.settle := by
    obtain ⟨status, solver, unread, transcript, saved, cancellations, watched⟩ := s
    obtain rfl : status = .running true := hs
    rcases cancellations with _ | ⟨_ | _, _⟩ <;> rfl
  rw [hlook, hlook, harrive]

/-- In a session that is not cancelled, a question for satisfiability leaves the mark of a call just
if it fails. A question for values leaves it if it fails, unless a tree was read that is no list of
pairs. Between calls, whatever they were, a session is marked only after such a failure. A
cancellation then kills the solver at once, and the next look at the status finds the session as if
it had not been marked. -/
theorem marks_of_calls :
    (∀ s events r s', Steps (Thread.checkSat, s) events (.done r, s') → s'.isCancelled = false →
      (s'.status = .running true ↔ ∃ e, r = .error e)) ∧
    (∀ terms, terms ≠ [] → ∀ s events r s',
      Steps (Thread.getValues terms, s) events (.done r, s') → s'.isCancelled = false →
      s'.status = .running true ∧ (∃ e, r = .error e) ∨
        s'.status = .running false ∧ ((∃ values, r = .ok values) ∨
          ∃ reply, Session.pairs? reply = none ∧ r = .error (.badReply reply.render))) ∧
    (∀ calls s₀ past s, Calls calls s₀ past s → s₀.status ≠ .running true →
      s.status = .running true →
      ∃ before call after past₁ events past₂ s₁ s₂ e, calls = before ++ call :: after ∧
        past = past₁ ++ (events ++ past₂) ∧ call.isLong = true ∧ Calls before s₀ past₁ s₁ ∧
        Steps (call.thread, s₁) events (.done (.error e), s₂) ∧ s₂.status = .running true ∧
        Calls after s₂ past₂ s) ∧
    ∀ s : Session, s.status = .running true → s.cancel.status = .killed ∧
      s.cancel.solver = s.solver.kill ∧
      Session.mayGoOn.run s.cancel =
        Session.mayGoOn.run { s with status := .running false }.cancel := by
  refine ⟨fun s events r s' h hs' => ?_, fun terms hterms s events r s' h hs' => ?_,
    fun calls s₀ past s h => h.exists_failed, fun s hs => ?_⟩
  · obtain ⟨inCall, hs⟩ := h.exists_running hs'
    obtain ⟨b, hb, hleaves⟩ := h.leaves hs hs' (leaves_checkSat inCall)
    rw [hb, ← hleaves]
    simp
  · obtain ⟨inCall, hs⟩ := h.exists_running hs'
    obtain ⟨b, hb, hleaves⟩ := h.leaves hs hs' (leaves_getValues hterms inCall)
    rw [hb]
    rcases hleaves with ⟨rfl, hfailed⟩ | ⟨rfl, hread⟩
    · exact .inl ⟨rfl, hfailed⟩
    · exact .inr ⟨rfl, hread⟩
  · have hcancel := Session.cancel_of_marked hs
    exact ⟨by rw [hcancel], by rw [hcancel], Session.mayGoOn_cancel hs⟩

/-- A session whose solver replies with an error. -/
def failingOnce : Session :=
  { answeringOnce with solver := .new [.text "(error \"boom\")"] false }

/-- A question is answered with an error, and nothing is going on any more. But the session is still
marked as in a call, and a cancellation kills the solver at once. -/
theorem marked_after_error : ∃ past s, Calls [.checkSat] failingOnce past s ∧
    failingOnce.status = .running false ∧ s.status = .running true ∧ s.cancel.status = .killed ∧
    s.cancel.solver.activity = .gone := by
  obtain ⟨events, hsteps⟩ := (Call.thread .checkSat).exists_steps failingOnce
  have hstatus : ((Call.thread .checkSat).perform failingOnce).2.status = .running true := by
    decide +kernel
  refine ⟨events ++ [], _, .cons hsteps (.nil _), rfl, hstatus, ?_, ?_⟩
  · rw [Session.cancel_of_marked hstatus]
  · rw [Session.cancel_of_marked hstatus]
    rfl

end InvariantSearch
