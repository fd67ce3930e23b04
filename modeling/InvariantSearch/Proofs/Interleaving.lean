import InvariantSearch.Proofs.Sessions

/-!
# Sessions among other threads

The thread that owns a session works in sections (`Thread`). In some of them it holds the lock of
the status; between any two of them other threads may cancel the session, and the solver may do
anything (`Step`, `Steps`). Every action of a session is written here as a thread, which is the
action itself when cancellations arrive only where the action lets them (`performs_checkSat` and its
siblings).
-/

namespace InvariantSearch

variable {α β : Type}

namespace Session

/-- A look at the status under its lock, which ends a cancelled session. A session that goes on is
marked as in a call or as between calls, if so asked. -/
def look (mark : Option Bool) (s : Session) : Session :=
  match s.settle.isCancelled, mark with
  | false, some inCall => { s.settle with status := .running inCall }
  | _, _ => s.settle

/-- Reads a reply, if there is one. -/
def takeReply (s : Session) : Session :=
  match Reply.split s.unread with
  | some (_, rest) => { s with unread := rest }
  | none => s

end Session

/-! ## Threads -/

/-- What is left to do for the thread that owns a session, section by section. -/
inductive Thread (α : Type) where
  | done (r : Except SolverError α)
  /-- A look at the status, under its lock. The thread learns whether the session goes on. -/
  | look (mark : Option Bool) (next : Bool → Thread α)
  /-- The session is given up, under the lock. -/
  | finish (next : Thread α)
  /-- A command is written to the solver and to the transcript, without the lock. -/
  | write (e : Sexp) (next : Thread α)
  /-- Any other work without the lock, which leaves the status alone. What comes next depends on
  how the session was found. -/
  | work (f : Session → Session) (hf : ∀ s, (f s).status = s.status) (next : Session → Thread α)
  /-- The session is inspected, after a time in which other threads may come first. -/
  | yield (next : Session → Thread α)
  /-- Nothing happens until another thread cancels the session. -/
  | await (next : Thread α)

namespace Thread

/-- One thread after another; the second is left out if the first fails. -/
def bind : Thread α → (α → Thread β) → Thread β
  | done (.ok a), f => f a
  | done (.error e), _ => done (.error e)
  | look mark next, f => look mark fun goesOn => (next goesOn).bind f
  | finish next, f => finish (next.bind f)
  | write e next, f => write e (next.bind f)
  | work g hg next, f => work g hg fun s => (next s).bind f
  | yield next, f => yield fun s => (next s).bind f
  | await next, f => await (next.bind f)

instance : Monad Thread where
  pure a := done (.ok a)
  bind := bind

/-- The thread that fails. -/
def fail (e : SolverError) : Thread α := done (.error e)

/-! ## The actions of a session -/

/-- A look at the status that fails if the session was cancelled. -/
def require (mark : Option Bool) : Thread Unit :=
  look mark fun goesOn => if goesOn then pure () else fail .killed

def send (e : Sexp) : Thread Unit :=
  look none fun goesOn => if goesOn then write e (pure ()) else pure ()

def outputEnded : Thread α :=
  work (fun s => { s with unread := [] }) (fun _ => rfl) fun s => do
    require none
    fail (.failed (Reply.errorText (String.ofList s.unread)))

theorem status_feed (text : String) (s : Session) : (s.feed text).status = s.status := rfl

theorem status_takeReply (s : Session) : s.takeReply.status = s.status := by
  unfold Session.takeReply
  split <;> rfl

def readReply : Thread String :=
  yield fun s =>
    if s.solver.activity = .gone then do
      require none
      fail (.system .brokenPipe)
    else
      work (Session.feed Session.markerRequest) (status_feed _) fun _ =>
      work Session.takeReply status_takeReply fun s =>
        match Reply.split s.unread with
        | some (reply, _) => pure (String.ofList reply)
        | none =>
          if s.solver.activity = .stuck then
            if s.watched then await outputEnded else fail .unresponsive
          else outputEnded

def ask (e : Sexp) : Thread Sexp := do
  send e
  let reply ← readReply
  match Sexp.parse reply with
  | .ok e => return e
  | .error _ => fail (.badReply reply)

def getInfo (key : String) : Thread Sexp := do
  let reply ← ask (.app "get-info" [.symbol key])
  match Session.pair? reply with
  | some (e, value) => if e = .symbol key then return value else fail (.badReply reply.render)
  | none => fail (.badReply reply.render)

def readSatisfiability (reply : String) : Thread Satisfiability :=
  match reply with
  | "sat" => return .sat
  | "unsat" => return .unsat
  | "unknown" => return .unknown (← getInfo ":reason-unknown").render
  | _ => do
    require none
    fail (.failed (Reply.errorText reply))

theorem status_save (s : Session) : (Session.save.run s).2.status = s.status := by
  obtain ⟨status, solver, unread, transcript, saved, cancellations, watched⟩ := s
  cases transcript with
  | none => rfl
  | some t =>
    show (Session.keep _ _).status = _
    unfold Session.keep
    split <;> rfl

theorem exchange_save (s : Session) : (Session.save.run s).2.exchange = s.exchange := by
  obtain ⟨status, solver, unread, transcript, saved, cancellations, watched⟩ := s
  cases transcript with
  | none => rfl
  | some t =>
    show (Session.keep _ _).exchange = _
    unfold Session.keep
    split <;> rfl

def checkSat : Thread Satisfiability := do
  send (.app "check-sat" [])
  require (some true)
  let answer ← readSatisfiability (← readReply)
  require (some false)
  match answer with
  | .unknown _ => work (fun s => (Session.save.run s).2) status_save fun _ => return answer
  | _ => return answer

def getValues (terms : List Sexp) : Thread (List (Sexp × Sexp)) := do
  if terms.isEmpty then return []
  require (some true)
  let reply ← ask (.app "get-value" [.list terms])
  require (some false)
  match reply.items?.bind (·.mapM Session.pair?) with
  | some values => return values
  | none => fail (.badReply reply.render)

def close : Thread Unit :=
  work (Session.feed "(exit)") (status_feed _) fun _ =>
  work (fun s => { s with solver := s.solver.kill }) (fun _ => rfl) fun _ =>
  finish (pure ())

/-! ## Sequential runs -/

/-- The run of a thread in which cancellations arrive just before each look at the status or at the
session, as they are due, and when they are awaited. -/
def perform : Thread α → Session → Except SolverError α × Session
  | done r, s => (r, s)
  | look mark next, s =>
    let s := s.arrive.look mark
    (next !s.isCancelled).perform s
  | finish next, s => next.perform { s with status := .terminated }
  | write e next, s => next.perform ((s.feed e.render).record [e])
  | work f _ next, s => (next s).perform (f s)
  | yield next, s => (next s.arrive).perform s.arrive
  | await next, s => next.perform s.cancel

/-- The thread does what the action does. -/
def Performs (p : Thread α) (m : SessionM α) : Prop := ∀ s, p.perform s = m.run.run s

theorem perform_bind (p : Thread α) (f : α → Thread β) (s : Session) :
    (p >>= f).perform s = match p.perform s with
      | (.ok a, s') => (f a).perform s'
      | (.error e, s') => (.error e, s') := by
  show (p.bind f).perform s = _
  induction p generalizing s with
  | done r => cases r <;> rfl
  | look mark next ih => exact ih _ _
  | finish next ih => exact ih _
  | write e next ih => exact ih _
  | work g hg next ih => exact ih _ _
  | yield next ih => exact ih _ _
  | await next ih => exact ih _

theorem Performs.bind {p : Thread α} {m : SessionM α} {f : α → Thread β} {k : α → SessionM β}
    (h : p.Performs m) (hf : ∀ a, (f a).Performs (k a)) : (p >>= f).Performs (m >>= k) := by
  intro s
  rw [perform_bind, Session.run_bind, h s]
  rcases m.run.run s with ⟨_ | a, s'⟩
  · rfl
  · exact hf a s'

theorem performs_pure (a : α) : (pure a : Thread α).Performs (pure a) := fun _ => rfl

theorem performs_fail (e : SolverError) : (fail e : Thread α).Performs (throw e) := fun _ => rfl

theorem look_none (s : Session) : s.look none = s.settle := by
  unfold Session.look
  split <;> simp_all

theorem performs_require : (require none).Performs Session.requireRunning := by
  intro s
  show (if _ then _ else _ : Thread Unit).perform (s.arrive.look none) = _
  rw [look_none]
  show _ = (if !s.arrive.settle.isCancelled then pure () else throw SolverError.killed :
    SessionM Unit).run.run s.arrive.settle
  cases s.arrive.settle.isCancelled <;> rfl

theorem look_some (inCall : Bool) (s : Session) : s.look (some inCall) =
    if s.settle.isCancelled then s.settle else { s.settle with status := .running inCall } := by
  unfold Session.look
  cases s.settle.isCancelled <;> rfl

/-- The begin and the end of a call. -/
theorem performs_require_mark (inCall : Bool) : (require (some inCall)).Performs (do
    Session.requireRunning
    modify fun s => { s with status := .running inCall }) := by
  intro s
  show (if _ then _ else _ : Thread Unit).perform (s.arrive.look (some inCall)) = _
  rw [look_some, Session.run_bind]
  have hlook : Session.requireRunning.run.run s = ((if !s.arrive.settle.isCancelled then pure ()
    else throw SolverError.killed : SessionM Unit).run.run s.arrive.settle) := rfl
  rw [hlook]
  cases hcancelled : s.arrive.settle.isCancelled
  · rfl
  · show Thread.perform (if !s.arrive.settle.isCancelled then _ else _) s.arrive.settle = _
    rw [hcancelled]
    rfl

theorem performs_send (e : Sexp) : (send e).Performs (liftM (Session.send e)) := by
  intro s
  show (if _ then _ else _ : Thread Unit).perform (s.arrive.look none) = _
  rw [look_none]
  show _ = (Except.ok (ε := SolverError) _,
    ((if !s.arrive.settle.isCancelled then
      modify fun s => (s.feed e.render).record [e] else pure () : StateM Session Unit).run
      s.arrive.settle).2)
  cases s.arrive.settle.isCancelled <;> rfl

theorem performs_outputEnded : (outputEnded : Thread α).Performs Session.outputEnded := by
  intro s
  rw [Session.outputEnded, Session.run_get_bind, Session.run_modify_bind]
  exact (performs_require.bind fun _ => performs_fail _) _

theorem performs_readReply : readReply.Performs Session.readReply := by
  intro s
  rw [Session.readReply, Session.run_modify_bind, Session.run_get_bind]
  show Thread.perform (if s.arrive.solver.activity = .gone then _ else _) s.arrive = _
  split
  next => exact (performs_require.bind fun _ _ => rfl) s.arrive
  next =>
    rw [Session.run_modify_bind, Session.run_get_bind]
    generalize hfed : s.arrive.feed Session.markerRequest = t
    show Thread.perform (match Reply.split (s.arrive.feed Session.markerRequest).unread with
      | some (reply, _) => _
      | none => _) (s.arrive.feed Session.markerRequest).takeReply = _
    rw [hfed, Session.takeReply]
    cases Reply.split t.unread with
    | some => rfl
    | none =>
      dsimp only
      split
      next =>
        split
        next => exact performs_outputEnded t.cancel
        next => rfl
      next => exact performs_outputEnded t

theorem performs_ask (e : Sexp) : (ask e).Performs (Session.ask e) := by
  refine (performs_send e).bind fun _ => performs_readReply.bind fun reply => ?_
  cases Sexp.parse reply with
  | ok e => exact performs_pure e
  | error => exact performs_fail _

theorem performs_getInfo (key : String) : (getInfo key).Performs (Session.getInfo key) := by
  refine (performs_ask _).bind fun reply => ?_
  cases Session.pair? reply with
  | none => exact performs_fail _
  | some pair =>
    dsimp only
    split
    · exact performs_pure _
    · exact performs_fail _

theorem performs_readSatisfiability (reply : String) :
    (readSatisfiability reply).Performs (Session.readSatisfiability reply) := by
  unfold readSatisfiability
  split
  next => exact performs_pure _
  next => exact performs_pure _
  next => exact (performs_getInfo _).bind fun _ => performs_pure _
  next hsat hunsat hunknown =>
    unfold Session.readSatisfiability
    split
    next => exact absurd rfl hsat
    next => exact absurd rfl hunsat
    next => exact absurd rfl hunknown
    next => exact performs_require.bind fun _ => performs_fail _

theorem performs_checkSat : checkSat.Performs Session.checkSat := by
  refine (performs_send _).bind fun _ => (performs_require_mark true).bind fun _ => ?_
  refine performs_readReply.bind fun reply => ?_
  refine (performs_readSatisfiability reply).bind fun answer => ?_
  refine (performs_require_mark false).bind fun _ => ?_
  cases answer with
  | sat | unsat => exact performs_pure _
  | unknown reason => exact fun _ => rfl

theorem performs_getValues (terms : List Sexp) :
    (getValues terms).Performs (Session.getValues terms) := by
  unfold getValues Session.getValues
  split
  · exact performs_pure _
  · refine (performs_require_mark true).bind fun _ => (performs_ask _).bind fun reply => ?_
    refine (performs_require_mark false).bind fun _ => ?_
    cases reply.items?.bind (·.mapM Session.pair?) with
    | none => exact performs_fail _
    | some values => exact performs_pure _

theorem performs_close : close.Performs (liftM Session.close) := fun _ => rfl

end Thread

/-! ## Interleavings -/

/-- What can be seen of a step. -/
inductive Event where
  /-- Another thread cancels the session. -/
  | cancel
  /-- Something else in the session changes, but not the status. -/
  | outside
  /-- A look at the status, and whether the session goes on. -/
  | looked (goesOn : Bool)
  | finished
  | wrote (e : Sexp)
  | worked
  deriving DecidableEq

/-- The event is none of the thread that owns the session. -/
def Event.IsForeign (event : Event) : Prop := event = .cancel ∨ event = .outside

/-- The next section of the thread. -/
inductive Turn : Thread α × Session → Event → Thread α × Session → Prop
  | look (mark : Option Bool) (next : Bool → Thread α) (s : Session) :
      Turn (.look mark next, s) (.looked !(s.look mark).isCancelled)
        (next !(s.look mark).isCancelled, s.look mark)
  | finish (p : Thread α) (s : Session) :
      Turn (.finish p, s) .finished (p, { s with status := .terminated })
  | write (e : Sexp) (p : Thread α) (s : Session) :
      Turn (.write e p, s) (.wrote e) (p, (s.feed e.render).record [e])
  | work (f : Session → Session) (hf : ∀ s, (f s).status = s.status) (next : Session → Thread α)
      (s : Session) : Turn (.work f hf next, s) .worked (next s, f s)
  | yield (next : Session → Thread α) (s : Session) : Turn (.yield next, s) .worked (next s, s)
  | await (p : Thread α) (s : Session) : Turn (.await p, s) .cancel (p, s.cancel)

/-- The thread takes its turn, or something happens in between. -/
inductive Step : Thread α × Session → Event → Thread α × Session → Prop
  | turn {x y : Thread α × Session} {event : Event} (h : Turn x event y) : Step x event y
  | cancel (p : Thread α) (s : Session) : Step (p, s) .cancel (p, s.cancel)
  | outside (p : Thread α) {s s' : Session} (h : s'.status = s.status) :
      Step (p, s) .outside (p, s')

/-- Steps in order, and what can be seen of them. -/
inductive Steps : Thread α × Session → List Event → Thread α × Session → Prop
  | nil (x : Thread α × Session) : Steps x [] x
  | cons {x y z : Thread α × Session} {event : Event} {events : List Event} (h : Step x event y)
      (hs : Steps y events z) : Steps x (event :: events) z

namespace Steps

variable {x y z : Thread α × Session} {p q : Thread α} {s s' : Session}
  {events events' : List Event}

theorem append (h : Steps x events y) (h' : Steps y events' z) : Steps x (events ++ events') z := by
  induction h with
  | nil => exact h'
  | cons h _ ih => exact .cons h (ih h')

theorem exists_of_append (h : Steps x (events ++ events') z) :
    ∃ y, Steps x events y ∧ Steps y events' z := by
  induction events generalizing x with
  | nil => exact ⟨x, .nil x, h⟩
  | cons event events ih =>
    cases h with
    | cons h hs =>
      obtain ⟨y, hy, hz⟩ := ih hs
      exact ⟨y, .cons h hy, hz⟩

/-- Until the thread takes its first turn, other threads cancel and the session changes. -/
theorem turn_cases (h : Steps (p, s) events x) :
    (x.1 = p ∧ ∀ event ∈ events, event.IsForeign) ∨
      ∃ before event after s₁ y, events = before ++ event :: after ∧
        (∀ event ∈ before, event.IsForeign) ∧ Steps (p, s) before (p, s₁) ∧
        Turn (p, s₁) event y ∧ Steps y after x := by
  generalize hstart : (p, s) = start at h
  induction h generalizing s with
  | nil =>
    subst hstart
    exact .inl ⟨rfl, by simp⟩
  | @cons _ _ _ event events h hs ih =>
    subst hstart
    have hstep := h
    cases h with
    | turn h => exact .inr ⟨[], event, events, s, _, rfl, by simp, .nil _, h, hs⟩
    | cancel | outside =>
      rcases ih rfl with
        ⟨hx, hevents⟩ | ⟨before, event', after, s₁, y, rfl, hbefore, hwait, hturn, hafter⟩
      · exact .inl ⟨hx, List.forall_mem_cons.2 ⟨by simp [Event.IsForeign], hevents⟩⟩
      · exact .inr ⟨_ :: before, event', after, s₁, y, rfl,
          List.forall_mem_cons.2 ⟨by simp [Event.IsForeign], hbefore⟩, .cons hstep hwait, hturn,
          hafter⟩

/-- Nothing is left to do. -/
theorem of_done {r : Except SolverError α} (h : Steps (.done r, s) events x) :
    x.1 = .done r ∧ ∀ event ∈ events, event.IsForeign := by
  rcases h.turn_cases with h | ⟨before, event, after, s₁, y, -, -, -, hturn, -⟩
  · exact h
  · cases hturn

end Steps

/-! ### Threads in order -/

theorem Turn.of_bind {p : Thread α} {f : α → Thread β} {s s' : Session} {event : Event}
    {q : Thread β} (h : Turn (p >>= f, s) event (q, s')) :
    (∃ a, p = .done (.ok a)) ∨ ∃ p', q = p' >>= f ∧ Turn (p, s) event (p', s') := by
  cases p with
  | done r =>
    cases r with
    | ok a => exact .inl ⟨a, rfl⟩
    | error e => cases h
  | look mark next =>
    cases h
    exact .inr ⟨_, rfl, .look mark next s⟩
  | finish p =>
    cases h
    exact .inr ⟨_, rfl, .finish p s⟩
  | write e p =>
    cases h
    exact .inr ⟨_, rfl, .write e p s⟩
  | work g hg next =>
    cases h
    exact .inr ⟨_, rfl, .work g hg next s⟩
  | yield next =>
    cases h
    exact .inr ⟨_, rfl, .yield next s⟩
  | await p =>
    cases h
    exact .inr ⟨_, rfl, .await p s⟩

/-- Where two threads in order come to a result, the first one did. -/
theorem Steps.exists_of_bind {p : Thread α} {f : α → Thread β} {s s' : Session}
    {events : List Event} {b : β} (h : Steps (p >>= f, s) events (.done (.ok b), s')) :
    ∃ a s₁ events₁ events₂, events = events₁ ++ events₂ ∧
      Steps (p, s) events₁ (.done (.ok a), s₁) ∧ Steps (f a, s₁) events₂ (.done (.ok b), s') := by
  generalize hstart : (p >>= f, s) = start at h
  generalize hend : ((.done (.ok b), s') : Thread β × Session) = y at h
  induction h generalizing p s with
  | nil =>
    subst hend
    cases p with
    | done r =>
      cases r with
      | ok a =>
        obtain ⟨hp, rfl⟩ := Prod.mk.inj hstart
        exact ⟨a, s, [], [], rfl, .nil _, hp ▸ .nil _⟩
      | error e => cases hstart
    | look | finish | write | work | yield | await => cases hstart
  | @cons x y z event events h hs ih =>
    subst hstart hend
    obtain ⟨q, s₁⟩ := y
    -- a step between the turns leaves the thread as it is
    have hkeep (hq : q = p >>= f) (hstep : Step (p, s) event (p, s₁)) : ∃ a s₂ events₁ events₂,
        event :: events = events₁ ++ events₂ ∧ Steps (p, s) events₁ (.done (.ok a), s₂) ∧
          Steps (f a, s₂) events₂ (.done (.ok b), s') := by
      obtain ⟨a, s₂, events₁, events₂, rfl, hfirst, hsecond⟩ := ih (congrArg (·, s₁) hq.symm) rfl
      exact ⟨a, s₂, event :: events₁, events₂, rfl, .cons hstep hfirst, hsecond⟩
    cases h with
    | cancel => exact hkeep rfl (.cancel p s)
    | outside _ hstatus => exact hkeep rfl (.outside p hstatus)
    | turn hturn =>
      rcases hturn.of_bind with ⟨a, rfl⟩ | ⟨p', rfl, hturn'⟩
      · exact ⟨a, s, [], event :: events, rfl, .nil _, .cons (.turn hturn) hs⟩
      · obtain ⟨a, s₂, events₁, events₂, rfl, hfirst, hsecond⟩ := ih rfl rfl
        exact ⟨a, s₂, event :: events₁, events₂, rfl, .cons (.turn hturn') hfirst, hsecond⟩

theorem Turn.bind {p p' : Thread α} {s s' : Session} {event : Event}
    (h : Turn (p, s) event (p', s')) (f : α → Thread β) :
    Turn (p >>= f, s) event (p' >>= f, s') := by
  cases h with
  | look mark next => exact .look mark (fun goesOn => next goesOn >>= f) s
  | finish => exact .finish (p' >>= f) s
  | write e => exact .write e (p' >>= f) s
  | work g hg next => exact .work g hg (fun s => next s >>= f) s
  | yield next => exact .yield (fun s => next s >>= f) s
  | await => exact .await (p' >>= f) s

/-- The first of two threads in order takes its steps. -/
theorem Steps.bind {p p' : Thread α} {s s' : Session} {events : List Event}
    (h : Steps (p, s) events (p', s')) (f : α → Thread β) :
    Steps (p >>= f, s) events (p' >>= f, s') := by
  generalize hstart : (p, s) = start at h
  generalize hend : (p', s') = y at h
  induction h generalizing p s with
  | nil =>
    obtain ⟨rfl, rfl⟩ := Prod.mk.inj (hstart.trans hend.symm)
    exact .nil _
  | @cons x y z event events h hs ih =>
    subst hstart hend
    obtain ⟨q, s₁⟩ := y
    refine .cons (?_ : Step _ _ (q >>= f, s₁)) (ih rfl rfl)
    cases h with
    | turn h => exact .turn (h.bind f)
    | cancel => exact .cancel (p >>= f) s
    | outside _ hstatus => exact .outside (p >>= f) hstatus

/-! ### Sequential runs among the interleavings -/

theorem exists_steps_arrive (p : Thread α) (s : Session) :
    ∃ events, Steps (p, s) events (p, s.arrive) := by
  unfold Session.arrive
  split
  next => exact ⟨[], .nil _⟩
  next due rest _ =>
    have hnext : Step (p, s) .outside (p, { s with cancellations := rest }) := .outside p rfl
    cases due with
    | false => exact ⟨[.outside], .cons hnext (.nil _)⟩
    | true => exact ⟨[.outside, .cancel], .cons hnext (.cons (.cancel p _) (.nil _))⟩

/-- The run in which cancellations arrive as they are due is one of the interleavings. -/
theorem Thread.exists_steps (p : Thread α) (s : Session) :
    ∃ events, Steps (p, s) events (.done (p.perform s).1, (p.perform s).2) := by
  induction p generalizing s with
  | done r => exact ⟨[], .nil _⟩
  | look mark next ih =>
    obtain ⟨before, harrive⟩ := exists_steps_arrive (.look mark next) s
    obtain ⟨after, hnext⟩ := ih _ (s.arrive.look mark)
    exact ⟨_, harrive.append (.cons (.turn (.look mark next _)) hnext)⟩
  | finish p ih =>
    obtain ⟨events, hnext⟩ := ih { s with status := .terminated }
    exact ⟨_, .cons (.turn (.finish p s)) hnext⟩
  | write e p ih =>
    obtain ⟨events, hnext⟩ := ih ((s.feed e.render).record [e])
    exact ⟨_, .cons (.turn (.write e p s)) hnext⟩
  | work f hf next ih =>
    obtain ⟨events, hnext⟩ := ih s (f s)
    exact ⟨_, .cons (.turn (.work f hf next s)) hnext⟩
  | yield next ih =>
    obtain ⟨before, harrive⟩ := exists_steps_arrive (.yield next) s
    obtain ⟨after, hnext⟩ := ih s.arrive s.arrive
    exact ⟨_, harrive.append (.cons (.turn (.yield next _)) hnext)⟩
  | await p ih =>
    obtain ⟨events, hnext⟩ := ih s.cancel
    exact ⟨_, .cons (.turn (.await p s)) hnext⟩

/-- A thread that succeeds in its sequential run leads on to the next one. -/
theorem Thread.exists_steps_bind (f : α → Thread β) {p : Thread α} {s : Session} {a : α}
    (h : (p.perform s).1.toOption = some a) :
    ∃ events, Steps (p >>= f, s) events (f a, (p.perform s).2) := by
  obtain ⟨events, hsteps⟩ := p.exists_steps s
  have hok : (p.perform s).1 = .ok a := by
    cases hr : (p.perform s).1 with
    | ok a' =>
      rw [hr] at h
      exact congrArg Except.ok (Option.some.inj h)
    | error e =>
      rw [hr] at h
      cases h
  rw [hok] at hsteps
  exact ⟨events, hsteps.bind f⟩

end InvariantSearch
