import InvariantSearch.Proofs.Sessions

/-!
# Replies in order

A session reads one reply after the other from what its solver writes. Each reply is a text whose
lines are not the marker (`Reply.Answer.Clean`), and the marker follows it on a line of its own, in
double quotes or not. Then each question gets its own reply, and the line after the marker is the
first one that the next question reads (`Session.replies_in_order`).

`Exchange.Answers` says that the solver gives such answers: once it was told a question and asked
for the marker, the answer is what there is to be read next. What it has written beyond the answer
stays for the questions after it, so it does not matter how early the solver writes.
-/

namespace InvariantSearch

namespace Reply

/-- What a solver writes in answer to a question: the reply, and the line of the marker. -/
structure Answer where
  text : List Char
  mark : List Char

namespace Answer

/-- The answer as it is written. -/
def output (a : Answer) : List Char := a.text ++ (a.mark ++ ['\n'])

/-- The reply that is read: white space at its end does not count. -/
def reply (a : Answer) : String := String.ofList (trimEnd a.text)

/-- The reply is empty or ends with a line feed, and none of its lines is the marker, bare or in
double quotes. The line after it is the marker. White space at the end of a line does not count. -/
structure Clean (a : Answer) : Prop where
  ended : a.text = [] ∨ ∃ t, a.text = t ++ ['\n']
  unmarked : ∀ l ∈ a.text.splitOn '\n',
    trimEnd l ≠ marker.toList ∧ trimEnd l ≠ quotedMarker.toList
  line : '\n' ∉ a.mark
  marked : trimEnd a.mark = marker.toList ∨ trimEnd a.mark = quotedMarker.toList

end Answer

theorem isMarker_iff {l : List Char} :
    isMarker l = true ↔ trimEnd l = marker.toList ∨ trimEnd l = quotedMarker.toList := by
  simp [isMarker]

/-- The frame of an answer ends with its marker line. -/
theorem Answer.Clean.framed {a : Answer} (h : a.Clean) (later : List Char) :
    Framed (a.output ++ later) (trimEnd a.text) later := by
  have hmarker : isMarker a.mark = true := isMarker_iff.2 h.marked
  rcases h.ended with hempty | ⟨t, ht⟩
  · have hframed := Framed.ended later unmarked_nil h.line hmarker
    simpa [output, hempty, ofLines] using hframed
  · have hlines : ∀ l ∈ t.splitOn '\n', isMarker l = false := by
      intro l hl
      have hmem : l ∈ a.text.splitOn '\n' := by
        rw [ht, List.splitOn_append_cons_self]
        exact List.mem_append_left _ hl
      rw [Bool.eq_false_iff, ne_eq, isMarker_iff, not_or]
      exact h.unmarked l hmem
    have hframed := framed_text hlines h.line hmarker later
    rw [← trimEnd_concat_newline, ← ht] at hframed
    simpa [output, ht] using hframed

end Reply

/-! ## A solver that answers -/

namespace Exchange

/-- The solver gives these answers to these questions. After each question, once the solver is also
asked for the marker, the answer is there to be read, and what follows it is left for the questions
after it. -/
inductive Answers : Exchange → List (Sexp × Reply.Answer) → Exchange → Prop
  | nil (x : Exchange) : Answers x [] x
  | cons {x x' : Exchange} {e : Sexp} {a : Reply.Answer} {qs : List (Sexp × Reply.Answer)}
      {later : List Char} (present : (x.tell e.render).solver.activity ≠ .gone)
      (written : ((x.tell e.render).tell Session.markerRequest).unread = a.output ++ later)
      (rest : Answers ⟨((x.tell e.render).tell Session.markerRequest).solver, later⟩ qs x') :
      Answers x ((e, a) :: qs) x'

variable {x : Exchange}

/-- A solver that has closed its output writes nothing more. -/
theorem tell_of_closed (h : x.solver.activity = .closed) (text : String) : x.tell text = x := by
  have hfeed (ls : List String) : x.solver.feedAll ls = (x.solver, "") := by
    induction ls with
    | nil => rfl
    | cons line ls ih => simp [ScriptedSolver.feedAll, ScriptedSolver.feed, h, ih]
  rw [tell, hfeed]
  simp

/-- Answers that are all written already are there for the questions, one after the other. -/
theorem answers_of_written {solver : ScriptedSolver} (h : solver.activity = .closed)
    (qs : List (Sexp × Reply.Answer)) (later : List Char) :
    Answers ⟨solver, qs.flatMap (·.2.output) ++ later⟩ qs ⟨solver, later⟩ := by
  induction qs with
  | nil => exact .nil _
  | cons q qs ih =>
    have hwritten : (q :: qs).flatMap (·.2.output) ++ later =
        q.2.output ++ (qs.flatMap (·.2.output) ++ later) := by simp
    rw [hwritten]
    have htell (text : String) :
        tell ⟨solver, q.2.output ++ (qs.flatMap (·.2.output) ++ later)⟩ text = _ :=
      tell_of_closed h text
    refine .cons ?_ (by rw [htell, htell]) ?_
    · rw [htell, h]
      decide
    · rw [htell, htell]
      exact ih

end Exchange

/-! ## Asking in order -/

namespace Session

/-- Asks questions in order and reads the reply to each. -/
def askAll : List Sexp → SessionM (List String)
  | [] => return []
  | e :: es => do
    send e
    let reply ← readReply
    return reply :: (← askAll es)

/-- The session goes on, and no cancellation is due. -/
structure Going (s : Session) : Prop where
  running : ∃ inCall, s.status = .running inCall
  quiet : ∀ due ∈ s.cancellations, due = false

variable {s : Session} {a : Reply.Answer} {later : List Char}

theorem Going.arrive (h : s.Going) : s.arrive.Going ∧ s.arrive.exchange = s.exchange := by
  rw [arrive_of_quiet h.quiet]
  exact ⟨⟨h.running, fun d hd => h.quiet d (List.mem_of_mem_tail hd)⟩, rfl⟩

/-- A question is sent to the solver. -/
theorem Going.send (h : s.Going) (e : Sexp) :
    ∃ s', (Session.send e).run s = ((), s') ∧ s'.Going ∧
      s'.exchange = s.exchange.tell e.render := by
  obtain ⟨⟨⟨inCall, hrunning⟩, hquiet⟩, hexchange⟩ := h.arrive
  refine ⟨_, send_of_running hrunning e, ⟨⟨inCall, hrunning⟩, hquiet⟩, ?_⟩
  rw [← hexchange]
  rfl

/-- The reply is what is there up to the line of the marker, and what follows that line is left. -/
theorem Going.readReply (h : s.Going) (present : s.solver.activity ≠ .gone)
    (written : (s.exchange.tell markerRequest).unread = a.output ++ later) (clean : a.Clean) :
    ∃ s', Session.readReply.run.run s = (.ok a.reply, s') ∧ s'.Going ∧
      s'.exchange = ⟨(s.exchange.tell markerRequest).solver, later⟩ := by
  obtain ⟨hgoing, hexchange⟩ := h.arrive
  rw [← hexchange] at written ⊢
  have hpresent : s.arrive.solver.activity ≠ .gone := by
    rwa [show s.arrive.solver = s.solver from congrArg Exchange.solver hexchange]
  have hframed : Reply.Framed (s.arrive.feed markerRequest).unread a.reply.toList later := by
    rw [show (s.arrive.feed markerRequest).unread = a.output ++ later from written,
      Reply.Answer.reply, String.toList_ofList]
    exact clean.framed later
  exact ⟨{ s.arrive.feed markerRequest with unread := later }, run_readReply hpresent hframed,
    ⟨hgoing.running, hgoing.quiet⟩, rfl⟩

/-- Questions get the answers that the solver gives to them. -/
theorem Going.askAll {qs : List (Sexp × Reply.Answer)} {x' : Exchange} (h : s.Going)
    (answers : s.exchange.Answers qs x') (clean : ∀ q ∈ qs, q.2.Clean) :
    ∃ s', (Session.askAll (qs.map Prod.fst)).run.run s = (.ok (qs.map (·.2.reply)), s') ∧
      s'.Going ∧ s'.exchange = x' := by
  induction qs generalizing s with
  | nil =>
    cases answers
    exact ⟨s, rfl, h, rfl⟩
  | cons q qs ih =>
    obtain ⟨hclean, hcleans⟩ := List.forall_mem_cons.1 clean
    cases answers with
    | cons present written rest =>
      obtain ⟨s₁, hsend, hs₁, hx₁⟩ := h.send _
      rw [← hx₁] at present written rest
      obtain ⟨s₂, hread, hs₂, hx₂⟩ := hs₁.readReply present written hclean
      rw [← hx₂] at rest
      obtain ⟨s₃, hask, hs₃, hx₃⟩ := ih hs₂ rest hcleans
      refine ⟨s₃, ?_, hs₃, hx₃⟩
      rw [List.map_cons, Session.askAll, run_bind, run_liftM, hsend]
      dsimp only
      rw [run_bind, hread]
      dsimp only
      rw [run_bind, hask]
      rfl

/-- Every question gets its own reply, whatever the solver: if it gives clean answers to the
questions, what is read for each is the reply in its answer, and in the end all that is left is what
the solver wrote after the line of the last marker. In particular the output may be there before the
first question, with the two forms of the marker in any order. Then after any number of questions
the output goes on with the answer to the next. -/
theorem replies_in_order {qs : List (Sexp × Reply.Answer)} (clean : ∀ q ∈ qs, q.2.Clean) :
    (∀ (s : Session) (x' : Exchange), s.Going → s.exchange.Answers qs x' →
      ∃ s', (askAll (qs.map Prod.fst)).run.run s = (.ok (qs.map (·.2.reply)), s') ∧ s'.Going ∧
        s'.exchange = x') ∧
    ∀ (s : Session) (later : List Char), s.Going → s.solver.activity = .closed →
      s.unread = qs.flatMap (·.2.output) ++ later → ∀ i,
      ∃ s', (askAll ((qs.take i).map Prod.fst)).run.run s =
          (.ok ((qs.take i).map (·.2.reply)), s') ∧ s'.Going ∧
        s'.exchange = ⟨s.solver, (qs.drop i).flatMap (·.2.output) ++ later⟩ := by
  constructor
  · intro s x' hs answers
    exact hs.askAll answers clean
  · intro s later hs hclosed hunread i
    have hsplit : s.exchange = ⟨s.solver, (qs.take i).flatMap (·.2.output) ++
        ((qs.drop i).flatMap (·.2.output) ++ later)⟩ := by
      rw [← List.append_assoc, ← List.flatMap_append, List.take_append_drop, ← hunread]
      rfl
    exact hs.askAll (hsplit ▸ Exchange.answers_of_written hclosed _ _)
      fun q hq => clean q (List.mem_of_mem_take hq)

/-- An empty answer, an error before the verdict, and a verdict; the markers are of both forms. -/
def mixedAnswers : List (Sexp × Reply.Answer) :=
  [(.app "get-info" [.symbol ":name"], ⟨[], "<<DONE>>".toList⟩),
   (satisfiability, ⟨"(error \"no logic\")\nsat\n".toList, "\"<<DONE>>\" ".toList⟩),
   (satisfiability, ⟨"unsat \n\n".toList, "<<DONE>>\t".toList⟩)]

theorem clean_mixedAnswers : ∀ q ∈ mixedAnswers, q.2.Clean := by
  simp only [mixedAnswers, List.forall_mem_cons]
  refine ⟨⟨.inl rfl, ?_, ?_, ?_⟩, ⟨.inr ⟨"(error \"no logic\")\nsat".toList, ?_⟩, ?_, ?_, ?_⟩,
    ⟨.inr ⟨"unsat \n".toList, ?_⟩, ?_, ?_, ?_⟩, by simp⟩ <;> decide +kernel

/-- A solver that has written these answers and a verdict more, and has closed its output. -/
def answeredAhead : Session :=
  { status := .running false
    solver := ⟨[], false, .closed⟩
    unread := mixedAnswers.flatMap (·.2.output) ++ "sat".toList
    transcript := none
    saved := []
    cancellations := []
    watched := false }

theorem replies_in_order_mixedAnswers : ∃ s',
    (askAll (mixedAnswers.map Prod.fst)).run.run answeredAhead =
      (.ok ["", "(error \"no logic\")\nsat", "unsat"], s') ∧ s'.unread = "sat".toList := by
  have hgoing : answeredAhead.Going := ⟨⟨false, rfl⟩, by simp [answeredAhead]⟩
  have hreplies : (mixedAnswers.take 3).map (·.2.reply) =
      ["", "(error \"no logic\")\nsat", "unsat"] := by decide +kernel
  obtain ⟨s', hrun, -, hx⟩ :=
    (replies_in_order clean_mixedAnswers).2 answeredAhead "sat".toList hgoing rfl rfl 3
  exact ⟨s', hreplies ▸ hrun, congrArg Exchange.unread hx⟩

end Session

end InvariantSearch
