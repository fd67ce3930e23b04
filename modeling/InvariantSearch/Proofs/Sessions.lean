import InvariantSearch.Oracle.Smt
import InvariantSearch.Proofs.Framing

/-!
# What passes between a session and its solver

A session that nobody cancels adds nothing of its own to what a solver says. Its solver and the
output that is not read yet are an `Exchange`, in which the solver is told commands and questions
and gives framed replies (`Exchange.Replies`). An action on such a session goes on with a result
that the exchange alone determines (`Goes`), or it fails (`Fails`).
-/

namespace InvariantSearch

variable {α β : Type}

/-- A solver, and what it has written and nobody has read. -/
structure Exchange where
  solver : ScriptedSolver
  unread : List Char

namespace Exchange

/-- Gives a text to the solver, line by line. -/
def tell (x : Exchange) (text : String) : Exchange :=
  let (solver, written) := x.solver.feedAll (Session.lines text)
  ⟨solver, x.unread ++ written.toList⟩

/-- Gives commands to the solver in order. -/
def tellAll (x : Exchange) (es : List Sexp) : Exchange := es.foldl (fun x e => x.tell e.render) x

/-- A question has a reply: the solver is still there after it was told the question, and what it
has written once it is asked for the marker is framed. -/
structure Replies (x : Exchange) (question : Sexp) (reply : String) (x' : Exchange) : Prop where
  present : (x.tell question.render).solver.activity ≠ .gone
  framed : Reply.Framed ((x.tell question.render).tell Session.markerRequest).unread reply.toList
    x'.unread
  solver : x'.solver = ((x.tell question.render).tell Session.markerRequest).solver

variable {x x' x'' : Exchange} {question : Sexp} {reply reply' : String}

/-- A question has one reply at most. -/
theorem Replies.unique (h : x.Replies question reply x') (h' : x.Replies question reply' x'') :
    reply = reply' ∧ x' = x'' := by
  obtain ⟨hreply, hunread⟩ := h.framed.unique h'.framed
  obtain ⟨solver', unread'⟩ := x'
  obtain ⟨solver'', unread''⟩ := x''
  obtain rfl : unread' = unread'' := hunread
  obtain rfl : solver' = solver'' := h.solver.trans h'.solver.symm
  exact ⟨String.toList_injective hreply, rfl⟩

/-! ### Exchanges with a script -/

/-- A line that is no question, asks for no marker and does not end the solver. -/
def IsPlain (line : String) : Prop :=
  ScriptedSolver.isQuestion line = false ∧ ScriptedSolver.beginsWith "(echo" line = false ∧
    line ≠ "(exit)"

instance (line : String) : Decidable (IsPlain line) := inferInstanceAs (Decidable (_ ∧ _ ∧ _))

theorem feed_of_isPlain {solver : ScriptedSolver} {line : String} (h : IsPlain line) :
    solver.feed line = (solver, "") := by
  obtain ⟨hquestion, hecho, hexit⟩ := h
  rw [ScriptedSolver.feed]
  split
  next => simp [hquestion, hecho, hexit]
  next => rfl

/-- Commands of plain lines are accepted in silence. -/
theorem tellAll_of_isPlain {es : List Sexp}
    (h : ∀ e ∈ es, ∀ line ∈ Session.lines e.render, IsPlain line) : x.tellAll es = x := by
  have hfeed {solver : ScriptedSolver} {ls : List String} (hls : ∀ line ∈ ls, IsPlain line) :
      solver.feedAll ls = (solver, "") := by
    induction ls with
    | nil => rfl
    | cons line ls ih =>
      obtain ⟨hline, hls⟩ := List.forall_mem_cons.1 hls
      rw [ScriptedSolver.feedAll, feed_of_isPlain hline]
      dsimp only
      rw [ih hls]
      rfl
  induction es with
  | nil => rfl
  | cons e es ih =>
    obtain ⟨he, hes⟩ := List.forall_mem_cons.1 h
    have htell : x.tell e.render = x := by
      rw [tell, hfeed he]
      simp
    show (x.tell e.render).tellAll es = x
    rw [htell, ih hes]

theorem tell_line {text line : String} (h : Session.lines text = [line]) :
    x.tell text = ⟨(x.solver.feed line).1, x.unread ++ (x.solver.feed line).2.toList⟩ := by
  rw [tell, h]
  simp [ScriptedSolver.feedAll]

/-- The marker is written as soon as it is asked for. -/
theorem tell_markerRequest (hanswering : x.solver.activity = .answering) : ∃ last : List Char,
    '\n' ∉ last ∧ Reply.isMarker last = true ∧
      x.tell Session.markerRequest = ⟨x.solver, x.unread ++ (last ++ ['\n'])⟩ := by
  have hlines : Session.lines Session.markerRequest = [Session.markerRequest] := by decide +kernel
  have hquestion : ScriptedSolver.isQuestion Session.markerRequest = false := by decide +kernel
  have hecho : ScriptedSolver.beginsWith "(echo" Session.markerRequest = true := by decide +kernel
  rw [tell_line hlines, ScriptedSolver.feed, hanswering]
  simp only [hquestion, hecho, Bool.false_eq_true, if_false, if_true]
  cases x.solver.quotesMarker
  · exact ⟨Reply.marker.toList, by decide +kernel, by decide +kernel, rfl⟩
  · exact ⟨Reply.quotedMarker.toList, by decide +kernel, by decide +kernel, rfl⟩

section Question

variable {line : String} {t : String} {rest : List ScriptedReply}
  (hanswering : x.solver.activity = .answering) (hunread : x.unread = [])
  (hline : Session.lines question.render = [line])
  (hquestion : ScriptedSolver.isQuestion line = true)

include hanswering hunread hline hquestion

/-- A question on one line takes the next prepared reply. -/
theorem tell_question : x.tell question.render = ⟨x.solver.answer.1, x.solver.answer.2.toList⟩ := by
  rw [tell_line hline, ScriptedSolver.feed, hanswering, hunread]
  simp [hquestion]

/-- A prepared text is the reply without the white space at its end, if none of its lines is the
marker. -/
theorem replies_text (hreplies : x.solver.replies = .text t :: rest)
    (ht : ∀ l ∈ t.toList.splitOn '\n', Reply.isMarker l = false)
    (hreply : reply.toList = trimEnd t.toList) :
    x.Replies question reply ⟨{ x.solver with replies := rest }, []⟩ := by
  have htold := tell_question hanswering hunread hline hquestion
  rw [ScriptedSolver.answer, hreplies] at htold
  dsimp only at htold
  obtain ⟨last, hlast, hmarker, hmarked⟩ := tell_markerRequest (x := x.tell question.render)
    (by rw [htold]; exact hanswering)
  refine ⟨by rw [htold]; simp [hanswering], ?_, by rw [hmarked, htold]⟩
  rw [hmarked, htold, hreply]
  dsimp only
  split
  next hempty =>
    obtain rfl : t = "" := String.isEmpty_iff.1 hempty
    exact Reply.Framed.ended [] Reply.unmarked_nil hlast hmarker
  next =>
    have hframed := Reply.framed_text ht hlast hmarker []
    simpa using hframed

/-- A prepared text after which the output is closed is no reply. -/
theorem not_replies_closing (hreplies : x.solver.replies = .closing t :: rest)
    (ht : ∀ l ∈ t.toList.splitOn '\n', Reply.isMarker l = false) :
    ¬x.Replies question reply x' := by
  have htold := tell_question hanswering hunread hline hquestion
  rw [ScriptedSolver.answer, hreplies] at htold
  dsimp only at htold
  have hlines : Session.lines Session.markerRequest = [Session.markerRequest] := by decide +kernel
  intro h
  have hframed := h.framed
  rw [htold, tell_line hlines, ScriptedSolver.feed] at hframed
  exact Reply.not_framed ht (by simpa using hframed)

end Question

end Exchange

namespace Session

variable {s : Session} {x x' x'' : Exchange} {m : SessionM α} {f : α → SessionM β} {a : α} {b : β}

/-- What passes between the session and its solver. -/
def exchange (s : Session) : Exchange := ⟨s.solver, s.unread⟩

/-- The session goes on, and no cancellation is due. -/
structure Calm (s : Session) : Prop where
  running : ∃ inCall, s.status = .running inCall
  quiet : ∀ due ∈ s.cancellations, due = false
  unwatched : s.watched = false

/-- On a session with this exchange that nobody cancels, the action has this result and leaves that
exchange. -/
def Goes (m : SessionM α) (x : Exchange) (a : α) (x' : Exchange) : Prop :=
  ∀ s : Session, s.Calm → s.exchange = x →
    ∃ s', m.run.run s = (.ok a, s') ∧ s'.Calm ∧ s'.exchange = x'

/-- On a session with this exchange that nobody cancels, the action fails. -/
def Fails (m : SessionM α) (x : Exchange) : Prop :=
  ∀ s : Session, s.Calm → s.exchange = x → ∃ e s', m.run.run s = (.error e, s')

/-! ## Actions in order -/

theorem run_bind (m : SessionM α) (f : α → SessionM β) (s : Session) :
    (m >>= f).run.run s = match m.run.run s with
      | (.ok a, s') => (f a).run.run s'
      | (.error e, s') => (.error e, s') := by
  show (match m.run.run s with
    | (r, s') => (ExceptT.bindCont f r).run s') = _
  rcases m.run.run s with ⟨_ | _, _⟩ <;> rfl

theorem goes_pure (a : α) (x : Exchange) : Goes (pure a) x a x := fun s hs hx => ⟨s, rfl, hs, hx⟩

theorem fails_throw (e : SolverError) (x : Exchange) : Fails (throw e : SessionM α) x :=
  fun s _ _ => ⟨e, s, rfl⟩

theorem Goes.bind (h : Goes m x a x') (hf : Goes (f a) x' b x'') : Goes (m >>= f) x b x'' := by
  intro s hs hx
  obtain ⟨s', hrun, hs', hx'⟩ := h s hs hx
  rw [run_bind, hrun]
  exact hf s' hs' hx'

theorem Goes.bind_fails (h : Goes m x a x') (hf : Fails (f a) x') : Fails (m >>= f) x := by
  intro s hs hx
  obtain ⟨s', hrun, hs', hx'⟩ := h s hs hx
  rw [run_bind, hrun]
  exact hf s' hs' hx'

theorem Fails.bind (h : Fails m x) : Fails (m >>= f) x := by
  intro s hs hx
  obtain ⟨e, s', hrun⟩ := h s hs hx
  exact ⟨e, s', by rw [run_bind, hrun]⟩

theorem run_liftM (m : StateM Session α) (s : Session) :
    (liftM m : SessionM α).run.run s = (.ok (m.run s).1, (m.run s).2) := rfl

/-- Actions that cannot fail. -/
theorem goes_liftM {m : StateM Session α} (h : ∀ s : Session, s.Calm → s.exchange = x →
    ∃ s', m.run s = (a, s') ∧ s'.Calm ∧ s'.exchange = x') : Goes (liftM m) x a x' := by
  intro s hs hx
  obtain ⟨s', hrun, hs', hx'⟩ := h s hs hx
  exact ⟨s', by rw [run_liftM, hrun], hs', hx'⟩

/-- Actions of the session alone, such as those on the transcript. -/
theorem goes_modify {change : Session → Session} (hcalm : ∀ s : Session, s.Calm → (change s).Calm)
    (hexchange : ∀ s : Session, (change s).exchange = s.exchange) :
    Goes (modify change) x () x := fun s hs hx =>
  ⟨change s, rfl, hcalm s hs, (hexchange s).trans hx⟩

/-! ## Commands -/

/-- Where no cancellation is due, none arrives. -/
theorem arrive_of_quiet (h : ∀ due ∈ s.cancellations, due = false) :
    s.arrive = { s with cancellations := s.cancellations.tail } := by
  obtain ⟨status, solver, unread, transcript, saved, cancellations, watched⟩ := s
  cases cancellations with
  | nil => rfl
  | cons due rest =>
    obtain rfl : due = false := h due List.mem_cons_self
    rfl

theorem Calm.arrive (hs : s.Calm) : s.arrive.Calm ∧ s.arrive.exchange = s.exchange := by
  rw [arrive_of_quiet hs.quiet]
  exact ⟨{ hs with quiet := fun d hd => hs.quiet d (List.mem_of_mem_tail hd) }, rfl⟩

/-- A look at the status finds nothing while the session is running. -/
theorem mayGoOn_of_running {inCall : Bool} (h : s.arrive.status = .running inCall) :
    mayGoOn.run s = (true, s.arrive) := by
  have hsettle : s.arrive.settle = s.arrive := by rw [settle, h]
  show (!s.arrive.settle.isCancelled, s.arrive.settle) = _
  rw [hsettle, isCancelled, h]
  rfl

/-- A command is given to the solver and to the transcript while the session is running. -/
theorem send_of_running {inCall : Bool} (h : s.arrive.status = .running inCall) (e : Sexp) :
    (send e).run s = ((), (s.arrive.feed e.render).record [e]) := by
  rw [send, StateT.run_bind, mayGoOn_of_running h]
  rfl

/-- A look at the status finds nothing. -/
theorem mayGoOn_of_calm (hs : s.Calm) :
    ∃ s', mayGoOn.run s = (true, s') ∧ s'.Calm ∧ s'.exchange = s.exchange := by
  obtain ⟨hs', hx'⟩ := hs.arrive
  obtain ⟨inCall, hrunning⟩ := hs'.running
  exact ⟨s.arrive, mayGoOn_of_running hrunning, hs', hx'⟩

theorem goes_requireRunning (x : Exchange) : Goes requireRunning x () x := by
  have hlook : Goes (liftM mayGoOn) x true x := goes_liftM fun s hs hx => by
    obtain ⟨s', hrun, hs', hx'⟩ := mayGoOn_of_calm hs
    exact ⟨s', hrun, hs', hx'.trans hx⟩
  exact hlook.bind (goes_pure () x)

theorem goes_startCall (x : Exchange) : Goes startCall x () x :=
  (goes_requireRunning x).bind (goes_modify (fun _ hs => { hs with running := ⟨true, rfl⟩ })
    fun _ => rfl)

theorem goes_endCall (x : Exchange) : Goes endCall x () x :=
  (goes_requireRunning x).bind (goes_modify (fun _ hs => { hs with running := ⟨false, rfl⟩ })
    fun _ => rfl)

theorem send_of_calm (hs : s.Calm) (e : Sexp) :
    ∃ s', (send e).run s = ((), s') ∧ s'.Calm ∧ s'.exchange = s.exchange.tell e.render := by
  obtain ⟨⟨⟨inCall, hrunning⟩, hquiet, hunwatched⟩, hx⟩ := hs.arrive
  refine ⟨_, send_of_running hrunning e, ⟨⟨inCall, hrunning⟩, hquiet, hunwatched⟩, ?_⟩
  rw [← hx]
  rfl

theorem sendAll_of_calm (es : List Sexp) (hs : s.Calm) :
    ∃ s', (es.forM send).run s = ((), s') ∧ s'.Calm ∧ s'.exchange = s.exchange.tellAll es := by
  induction es generalizing s with
  | nil => exact ⟨s, rfl, hs, rfl⟩
  | cons e es ih =>
    obtain ⟨s₁, hrun, hs₁, hx₁⟩ := send_of_calm hs e
    obtain ⟨s₂, hrun₂, hs₂, hx₂⟩ := ih hs₁
    refine ⟨s₂, ?_, hs₂, hx₂.trans (by rw [hx₁]; rfl)⟩
    show (send e >>= fun _ => es.forM send).run s = _
    rw [StateT.run_bind, hrun]
    exact hrun₂

theorem goes_send (e : Sexp) (x : Exchange) : Goes (liftM (send e)) x () (x.tell e.render) :=
  goes_liftM fun _ hs hx => hx ▸ send_of_calm hs e

theorem goes_sendAll (es : List Sexp) (x : Exchange) :
    Goes (es.forM fun e => liftM (send e)) x () (x.tellAll es) := by
  induction es generalizing x with
  | nil => exact goes_pure () x
  | cons e es ih =>
    exact (goes_send e x).bind (ih _)

theorem save_of_calm (hs : s.Calm) :
    ∃ text s', save.run s = (text, s') ∧ s'.Calm ∧ s'.exchange = s.exchange := by
  obtain ⟨status, solver, unread, transcript, saved, cancellations, watched⟩ := s
  cases transcript with
  | none => exact ⟨none, _, rfl, hs, rfl⟩
  | some t =>
    refine ⟨some t.render, _, rfl, ?_⟩
    rw [keep]
    split
    · exact ⟨hs, rfl⟩
    · exact ⟨⟨hs.running, hs.quiet, hs.unwatched⟩, rfl⟩

/-- Saving the transcript does not matter to what follows. -/
theorem goes_save_bind {f : Option String → SessionM β} (h : ∀ text, Goes (f text) x b x') :
    Goes (liftM save >>= f) x b x' := by
  intro s hs hx
  obtain ⟨text, s', hrun, hs', hx'⟩ := save_of_calm hs
  rw [run_bind, run_liftM, hrun]
  exact h text s' hs' (hx'.trans hx)

/-! ## Replies -/

theorem run_modify_bind (change : Session → Session) (f : Unit → SessionM α) (s : Session) :
    ((modify change : SessionM Unit) >>= f).run.run s = (f ()).run.run (change s) := rfl

theorem run_get_bind (f : Session → SessionM α) (s : Session) :
    ((get : SessionM Session) >>= f).run.run s = (f s).run.run s := rfl

/-- The reply is read if its frame is there, and what follows the frame is left. -/
theorem run_readReply {reply : String} {rest : List Char}
    (hpresent : s.arrive.solver.activity ≠ .gone)
    (hframed : Reply.Framed (s.arrive.feed markerRequest).unread reply.toList rest) :
    readReply.run.run s = (.ok reply, { s.arrive.feed markerRequest with unread := rest }) := by
  have hsplit : Reply.split (s.arrive.feed markerRequest).unread = some (reply.toList, rest) :=
    Reply.split_eq_some_iff.2 hframed
  rw [readReply, run_modify_bind, run_get_bind]
  dsimp only
  rw [if_neg hpresent, run_modify_bind, run_get_bind, hsplit]
  show (Except.ok (String.ofList reply.toList), _) = _
  rw [String.ofList_toList]

theorem goes_readReply {reply : String} {rest : List Char} (hpresent : x.solver.activity ≠ .gone)
    (hframed : Reply.Framed (x.tell markerRequest).unread reply.toList rest) :
    Goes readReply x reply ⟨(x.tell markerRequest).solver, rest⟩ := by
  intro s hs hx
  obtain ⟨⟨hrunning, hquiet, hunwatched⟩, hx'⟩ := hs.arrive
  obtain rfl : s.arrive.exchange = x := hx'.trans hx
  exact ⟨{ s.arrive.feed markerRequest with unread := rest }, run_readReply hpresent hframed,
    ⟨hrunning, hquiet, hunwatched⟩, rfl⟩

theorem fails_outputEnded (x : Exchange) : Fails (outputEnded : SessionM α) x := by
  intro s hs hx
  rw [outputEnded, run_get_bind, run_modify_bind]
  exact (goes_requireRunning _).bind_fails (fails_throw _ _) _
    ⟨hs.running, hs.quiet, hs.unwatched⟩ rfl

/-- Without a frame the reply is not read. -/
theorem fails_readReply (h : x.solver.activity ≠ .gone →
    ∀ reply rest, ¬Reply.Framed (x.tell markerRequest).unread reply rest) : Fails readReply x := by
  intro s hs hx
  obtain ⟨hs', hx'⟩ := hs.arrive
  obtain rfl : s.arrive.exchange = x := hx'.trans hx
  rw [readReply, run_modify_bind, run_get_bind]
  dsimp only
  by_cases hgone : s.arrive.solver.activity = .gone
  · rw [if_pos hgone]
    exact (goes_requireRunning _).bind_fails (fails_throw _ _).bind s.arrive hs' rfl
  · have hsplit : Reply.split (s.arrive.feed markerRequest).unread = none :=
      Option.eq_none_iff_forall_not_mem.2 fun ⟨reply, rest⟩ hsome =>
        h hgone reply rest (Reply.split_eq_some_iff.1 hsome)
    have hfed : (s.arrive.feed markerRequest).Calm := ⟨hs'.running, hs'.quiet, hs'.unwatched⟩
    rw [if_neg hgone, run_modify_bind, run_get_bind, hsplit]
    dsimp only
    split
    · rw [if_neg (by simp [hfed.unwatched])]
      exact (fails_throw _ _).bind _ hfed rfl
    · exact fails_outputEnded _ _ hfed rfl

/-! ## Questions -/

/-- The reply to a question is read. -/
theorem goes_reply {question : Sexp} {reply : String} (h : x.Replies question reply x') :
    Goes readReply (x.tell question.render) reply x' := by
  obtain ⟨solver, unread⟩ := x'
  obtain rfl : solver = _ := h.solver
  exact goes_readReply h.present h.framed

/-- Where a question has no reply, none is read. -/
theorem fails_reply {question : Sexp} (h : ∀ reply x', ¬x.Replies question reply x') :
    Fails readReply (x.tell question.render) :=
  fails_readReply fun hpresent reply rest hframed =>
    h (String.ofList reply) ⟨_, rest⟩ ⟨hpresent, by simpa using hframed, rfl⟩

/-- A question is answered with an s-expression, or it fails. -/
theorem goes_ask {e answer : Sexp} {reply : String} (h : x.Replies e reply x')
    (hparse : Sexp.parse reply = .ok answer) : Goes (ask e) x answer x' := by
  refine (goes_send e x).bind ((goes_reply h).bind ?_)
  rw [hparse]
  exact goes_pure answer x'

theorem fails_ask {e : Sexp} (h : ∀ reply x', x.Replies e reply x' →
    ∀ answer, Sexp.parse reply ≠ .ok answer) : Fails (ask e) x := by
  refine (goes_send e x).bind_fails ?_
  by_cases hreply : ∃ reply x', x.Replies e reply x'
  · obtain ⟨reply, x', hreply⟩ := hreply
    refine (goes_reply hreply).bind_fails ?_
    cases hparse : Sexp.parse reply with
    | ok answer => exact absurd hparse (h reply x' hreply answer)
    | error => exact fails_throw _ _
  · exact (fails_reply fun reply x' hr => hreply ⟨reply, x', hr⟩).bind

/-- What the solver says about itself, or a failure. -/
theorem goes_or_fails_getInfo (key : String) (x : Exchange) :
    (∃ value x', Goes (getInfo key) x value x') ∨ Fails (getInfo key) x := by
  by_cases hreply : ∃ reply x', x.Replies (.app "get-info" [.symbol key]) reply x' ∧
      ∃ answer, Sexp.parse reply = .ok answer
  · obtain ⟨reply, x', hreply, answer, hparse⟩ := hreply
    have hask := goes_ask hreply hparse
    cases hpair : pair? answer with
    | none =>
      refine .inr (hask.bind_fails ?_)
      rw [hpair]
      exact fails_throw _ _
    | some pair =>
      by_cases hkey : pair.1 = .symbol key
      · refine .inl ⟨pair.2, x', hask.bind ?_⟩
        rw [hpair]
        dsimp only
        rw [if_pos hkey]
        exact goes_pure _ _
      · refine .inr (hask.bind_fails ?_)
        rw [hpair]
        dsimp only
        rw [if_neg hkey]
        exact fails_throw _ _
  · exact .inr (fails_ask fun reply x' hr answer hparse =>
      hreply ⟨reply, x', hr, answer, hparse⟩).bind

/-- The question whether the assertions can all hold. -/
def satisfiability : Sexp := .app "check-sat" []

/-- The reply to the question whether the assertions can all hold decides it. -/
theorem goes_checkSat {reply : String} {answer : Satisfiability}
    (h : x.Replies satisfiability reply x')
    (hread : Goes (readSatisfiability reply) x' answer x'') : Goes checkSat x answer x'' := by
  refine (goes_send _ x).bind ((goes_startCall _).bind ((goes_reply h).bind (hread.bind ?_)))
  refine (goes_endCall x'').bind ?_
  cases answer with
  | unknown reason => exact goes_save_bind fun _ => goes_pure _ _
  | sat | unsat => exact goes_pure _ _

/-- Whatever else the reply is, the question stays undecided. -/
theorem undecided_checkSat (h : ∀ reply x', x.Replies satisfiability reply x' →
    reply ≠ "sat" ∧ reply ≠ "unsat") :
    (∃ reason x', Goes checkSat x (.unknown reason) x') ∨ Fails checkSat x := by
  have hcalled := goes_send satisfiability x
  by_cases hreply : ∃ reply x', x.Replies satisfiability reply x'
  · obtain ⟨reply, x', hreply⟩ := hreply
    obtain ⟨hsat, hunsat⟩ := h reply x' hreply
    by_cases hunknown : reply = "unknown"
    · subst hunknown
      obtain ⟨value, x'', hinfo⟩ | hinfo := goes_or_fails_getInfo ":reason-unknown" x'
      · exact .inl ⟨value.render, x'', goes_checkSat hreply (hinfo.bind (goes_pure _ _))⟩
      · exact .inr (hcalled.bind_fails ((goes_startCall _).bind_fails
          ((goes_reply hreply).bind_fails hinfo.bind.bind)))
    · refine .inr (hcalled.bind_fails ((goes_startCall _).bind_fails
        ((goes_reply hreply).bind_fails (Fails.bind ?_))))
      unfold readSatisfiability
      split
      next => exact absurd rfl hsat
      next => exact absurd rfl hunsat
      next => exact absurd rfl hunknown
      next => exact (goes_requireRunning _).bind_fails (fails_throw _ _)
  · exact .inr (hcalled.bind_fails ((goes_startCall _).bind_fails
      (fails_reply fun reply x' hr => hreply ⟨reply, x', hr⟩).bind))

/-- The pairs that a tree lists. -/
def pairs? (e : Sexp) : Option (List (Sexp × Sexp)) := e.items?.bind (·.mapM pair?)

/-- The question for the values of terms. -/
def valuesOf (terms : List Sexp) : Sexp := .app "get-value" [.list terms]

theorem goes_getValues {terms : List Sexp} (hterms : terms ≠ []) {reply : String} {answer : Sexp}
    {values : List (Sexp × Sexp)} (h : x.Replies (valuesOf terms) reply x')
    (hparse : Sexp.parse reply = .ok answer) (hvalues : pairs? answer = some values) :
    Goes (getValues terms) x values x' := by
  rw [getValues, if_neg (by simpa using hterms)]
  refine (goes_startCall x).bind ((goes_ask h hparse).bind ((goes_endCall x').bind ?_))
  rw [pairs?] at hvalues
  rw [hvalues]
  exact goes_pure _ _

theorem fails_getValues {terms : List Sexp} (hterms : terms ≠ [])
    (h : ∀ reply x', x.Replies (valuesOf terms) reply x' → ∀ answer, Sexp.parse reply = .ok answer →
      pairs? answer = none) : Fails (getValues terms) x := by
  rw [getValues, if_neg (by simpa using hterms)]
  refine (goes_startCall x).bind_fails ?_
  by_cases hreply : ∃ reply x', x.Replies (valuesOf terms) reply x' ∧
      ∃ answer, Sexp.parse reply = .ok answer
  · obtain ⟨reply, x', hreply, answer, hparse⟩ := hreply
    refine (goes_ask hreply hparse).bind_fails ((goes_endCall x').bind_fails ?_)
    have hnone := h reply x' hreply answer hparse
    rw [pairs?] at hnone
    rw [hnone]
    exact fails_throw _ _
  · exact (fails_ask fun reply x' hr answer hparse =>
      hreply ⟨reply, x', hr, answer, hparse⟩).bind

end Session

end InvariantSearch
