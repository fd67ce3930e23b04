import InvariantSearch.Oracle.Smt
import InvariantSearch.Proofs.PrintedDefinitions
import InvariantSearch.Proofs.Replies

/-!
# Replaying a transcript

A saved transcript is read as the entries it was written from, in order
(`Transcript.parseMany_render`). Only its own comments differ: an empty one leaves an empty line,
which is not read at all, and any other is read with the second semicolon in its text
(`Transcript.replayed`). The comments inside an entry are read as they were.

A session writes down every command and comment, and what it saves is read as these
(`Session.Going.exists_saved`). The transcript begins with the options of the solver; one that is
set to a number is a symbol in the session, and a numeral where it is read
(`Session.exists_saved_of_start`).
-/

namespace InvariantSearch

namespace Transcript

open Sexp Sexp.Reader

/-- What is read where an entry was written. -/
def replayed : Sexp → List Sexp
  | .comment text => if text.isEmpty then [] else [.comment ("; " ++ text)]
  | e => [e]

theorem replayed_of_isComment_eq_false {e : Sexp} (h : e.isComment = false) : replayed e = [e] := by
  cases e with
  | comment text => cases h
  | _ => rfl

/-- Nothing but comments is changed. -/
theorem filter_replayed (e : Sexp) :
    (replayed e).filter (!·.isComment) = [e].filter (!·.isComment) := by
  cases e with
  | comment text =>
    rw [replayed]
    split <;> rfl
  | _ => rfl

theorem filter_flatMap_eq {f : Sexp → List Sexp}
    (hf : ∀ e, (f e).filter (!·.isComment) = [e].filter (!·.isComment)) (es : List Sexp) :
    (es.flatMap f).filter (!·.isComment) = es.filter (!·.isComment) := by
  induction es with
  | nil => rfl
  | cons e es ih =>
    rw [List.flatMap_cons, List.filter_append, hf, ih, ← List.filter_append]
    rfl

/-! ## Lines -/

theorem toList_render_singleton (e : Sexp) :
    (render [e]).toList = (renderEntry e).toList ++ ['\n'] := by
  simp [render]

theorem toList_render_cons_cons (e e' : Sexp) (t : Transcript) :
    (render (e :: e' :: t)).toList =
      (renderEntry e).toList ++ '\n' :: (render (e' :: t)).toList := by
  simp [render]

/-- The lines of an entry are read before the entries after it. -/
theorem reads_renderEntry {e : Sexp} (h : ∀ tok ∈ e.tokens, Readable tok) (trees : List Sexp)
    (cs : List Char) :
    reads false ((renderEntry e).toList ++ '\n' :: cs) .between ⟨[], trees⟩ =
      reads false cs .between ⟨[], (replayed e).reverse ++ trees⟩ := by
  have hnewline : ∀ σ, reads false ('\n' :: cs) .between σ = reads false cs .between σ :=
    fun _ => reads_blank rfl
  cases hcomment : e.isComment with
  | false =>
    have hrender : renderEntry e = e.render := by
      cases e with
      | comment text => cases hcomment
      | _ => rfl
    have hends : Ends ('\n' :: cs) := fun c hc => Option.some.inj hc ▸ rfl
    rw [hrender, reads_render e h hcomment rfl hends, hnewline,
      replayed_of_isComment_eq_false hcomment]
    rfl
  | true =>
    cases e with
    | comment text =>
      rw [renderEntry, replayed]
      split
      next => exact hnewline _
      next =>
        have htext : '\n' ∉ text.toList := h (.comment text) (List.mem_singleton_self _)
        have hsemicolon : '\n' ∉ ("; " ++ text).toList := by simpa using htext
        have hline : (";; " ++ text).toList = ';' :: ("; " ++ text).toList := by simp
        rw [hline, List.cons_append, reads_semicolon rfl, reads_comment _ [] hsemicolon,
          Shape.pushComment, List.append_nil, List.reverse_reverse, String.ofList_toList]
        rfl
    | _ => cases hcomment

/-! ## Saved transcripts -/

theorem reads_entries {t : Transcript} (h : ∀ e ∈ t, ∀ tok ∈ e.tokens, Readable tok)
    (trees : List Sexp) : reads false (render t).toList .between ⟨[], trees⟩ =
      some (trees.reverse ++ t.flatMap replayed) := by
  induction t generalizing trees with
  | nil =>
    rw [List.flatMap_nil, List.append_nil]
    exact reads_blank rfl
  | cons e t ih =>
    have he : ∀ tok ∈ e.tokens, Readable tok := h e List.mem_cons_self
    have ht : ∀ e ∈ t, ∀ tok ∈ e.tokens, Readable tok := fun e he =>
      h e (List.mem_cons_of_mem _ he)
    have hlater : trees.reverse ++ (e :: t).flatMap replayed =
        ((replayed e).reverse ++ trees).reverse ++ t.flatMap replayed := by simp
    rw [hlater]
    cases t with
    | nil =>
      rw [toList_render_singleton, reads_renderEntry he, List.flatMap_nil, List.append_nil]
      rfl
    | cons e' t => rw [toList_render_cons_cons, reads_renderEntry he, ih ht]

/-- A saved transcript is read entry by entry. -/
theorem parseMany_render_eq {t : Transcript} (h : ∀ e ∈ t, ∀ tok ∈ e.tokens, Readable tok) :
    parseMany t.render = .ok (t.flatMap replayed) := by
  obtain ⟨spanned, hparse, hmap⟩ := exists_parseSpanned (reads_entries h [])
  rw [parseMany, hparse, Except.map, hmap]
  rfl

theorem readable_of_isName {e : Sexp}
    (hcomments : ∀ text, Token.comment text ∈ e.tokens → '\n' ∉ text.toList)
    (hsymbols : ∀ s, Token.symbol s ∈ e.tokens → IsName s) : ∀ tok ∈ e.tokens, Readable tok := by
  intro tok htok
  match tok with
  | .opening | .closing | .atom (.numeral _) => trivial
  | .atom (.symbol s) => exact (hsymbols s htok).isLegible
  | .comment text => exact hcomments text htok

/-- A saved transcript is read, and what is read are its entries in order, comments apart, if every
comment is one line and every symbol is a name. -/
theorem parseMany_render {t : Transcript}
    (hcomments : ∀ e ∈ t, ∀ text, Token.comment text ∈ e.tokens → '\n' ∉ text.toList)
    (hsymbols : ∀ e ∈ t, ∀ s, Token.symbol s ∈ e.tokens → IsName s) :
    ∃ es, parseMany t.render = .ok es ∧ es.filter (!·.isComment) = t.filter (!·.isComment) := by
  have hreadable : ∀ e ∈ t, ∀ tok ∈ e.tokens, Readable tok := fun e he =>
    readable_of_isName (hcomments e he) (hsymbols e he)
  exact ⟨t.flatMap replayed, parseMany_render_eq hreadable, filter_flatMap_eq filter_replayed t⟩

/-- A command line, an empty comment, and a command with a comment and a quoted name inside. -/
theorem parseMany_render_command :
    ∃ es, parseMany (render [.comment "z3 -in", .comment "",
        .list [.symbol "get-value", .comment "the next state", .symbol "x'"]]) = .ok es ∧
      es.filter (!·.isComment) =
        [.list [.symbol "get-value", .comment "the next state", .symbol "x'"]] := by
  refine parseMany_render (t := [.comment "z3 -in", .comment "",
    .list [.symbol "get-value", .comment "the next state", .symbol "x'"]]) ?_ ?_
  · intro e he text htext
    simp only [List.mem_cons, List.not_mem_nil, or_false] at he
    rcases he with rfl | rfl | rfl <;> simp [tokens, tokensAll, Sexp.symbol] at htext <;>
      subst htext <;> decide
  · intro e he s hs
    simp only [List.mem_cons, List.not_mem_nil, or_false] at he
    rcases he with rfl | rfl | rfl <;> simp [tokens, tokensAll, Sexp.symbol] at hs
    rcases hs with rfl | rfl
    · exact .inl (by decide)
    · exact .inr (by decide)

end Transcript

/-! ## Sessions that keep a transcript -/

namespace Session

open Sexp Sexp.Reader Transcript

/-- Sends a command, or adds a comment to the transcript. -/
def note : Sexp → StateM Session Unit
  | .comment text => modify (comment text)
  | e => send e

/-- What is written down then: an empty line stands before a comment. -/
def noted : Sexp → List Sexp
  | .comment text => [.comment "", .comment text]
  | e => [e]

theorem filter_noted (e : Sexp) :
    (noted e).filter (!·.isComment) = [e].filter (!·.isComment) := by
  cases e <;> rfl

/-- An empty line is readable. -/
theorem readable_noted {e : Sexp} (h : ∀ tok ∈ e.tokens, Readable tok) :
    ∀ e' ∈ noted e, ∀ tok ∈ e'.tokens, Readable tok := by
  cases e with
  | comment text =>
    refine List.forall_mem_cons.2 ⟨fun tok htok => ?_, List.forall_mem_singleton.2 h⟩
    obtain rfl := List.mem_singleton.1 htok
    exact List.not_mem_nil
  | atom | list => exact List.forall_mem_singleton.2 h

variable {s : Session} {t t' : Transcript} {es : List Sexp}

theorem transcript_arrive (s : Session) : s.arrive.transcript = s.transcript := by
  obtain ⟨status, solver, unread, transcript, saved, cancellations, watched⟩ := s
  cases cancellations with
  | nil => rfl
  | cons due rest =>
    cases due with
    | false => rfl
    | true =>
      cases status with
      | running inCall => cases inCall <;> rfl
      | stopping | killed | terminated => rfl

theorem Going.note (h : s.Going) (e : Sexp) : ∃ s', (Session.note e).run s = ((), s') ∧ s'.Going ∧
    s'.transcript = s.transcript.map (· ++ noted e) := by
  obtain ⟨⟨⟨inCall, hrunning⟩, hquiet⟩, -⟩ := h.arrive
  have hsend : ∃ s', (Session.send e).run s = ((), s') ∧ s'.Going ∧
      s'.transcript = s.transcript.map (· ++ [e]) :=
    ⟨_, send_of_running hrunning e, ⟨⟨inCall, hrunning⟩, hquiet⟩,
      congrArg (Option.map (· ++ [e])) (transcript_arrive s)⟩
  cases e with
  | comment text => exact ⟨s.comment text, rfl, ⟨h.running, h.quiet⟩, rfl⟩
  | atom | list => exact hsend

/-- What was noted is in the transcript, in order. -/
theorem Going.notes (h : s.Going) (es : List Sexp) : ∃ s', (es.forM Session.note).run s = ((), s') ∧
    s'.Going ∧ s'.transcript = s.transcript.map (· ++ es.flatMap noted) := by
  induction es generalizing s with
  | nil => exact ⟨s, rfl, h, by simp⟩
  | cons e es ih =>
    obtain ⟨s₁, hrun₁, h₁, ht₁⟩ := h.note e
    obtain ⟨s₂, hrun₂, h₂, ht₂⟩ := ih h₁
    refine ⟨s₂, ?_, h₂, ?_⟩
    · show (Session.note e >>= fun _ => es.forM Session.note).run s = _
      rw [StateT.run_bind, hrun₁]
      exact hrun₂
    · rw [ht₂, ht₁, Option.map_map, List.flatMap_cons]
      simp only [Function.comp_def, List.append_assoc]

theorem mem_saved_keep (text : String) (s : Session) : text ∈ (keep text s).saved := by
  unfold keep
  split
  next h => exact h
  next => exact List.mem_append_right _ (List.mem_singleton_self text)

theorem run_save (h : s.transcript = some t) : save.run s = (some t.render, keep t.render s) := by
  obtain ⟨status, solver, unread, transcript, saved, cancellations, watched⟩ := s
  obtain rfl : transcript = some t := h
  rfl

/-- What a session has in its transcript, and what it notes then, is what is read from the text that
it saves, comments apart. The transcript need not be readable itself, if it is written like one that
is. -/
theorem Going.exists_saved (h : s.Going) (ht : s.transcript = some t)
    (hwritten : t.map renderEntry = t'.map renderEntry) (es : List Sexp)
    (hreadable : ∀ e ∈ t' ++ es, ∀ tok ∈ e.tokens, Readable tok) :
    ∃ text s' read, (do es.forM Session.note; save).run s = (some text, s') ∧ text ∈ s'.saved ∧
      parseMany text = .ok read ∧
      read.filter (!·.isComment) = (t' ++ es).filter (!·.isComment) := by
  obtain ⟨s₁, hrun, -, ht₁⟩ := h.notes es
  rw [ht, Option.map_some] at ht₁
  have htext : Transcript.render (t ++ es.flatMap noted) =
      Transcript.render (t' ++ es.flatMap noted) := by
    rw [Transcript.render, Transcript.render, List.map_append, hwritten, List.map_append]
  have hnoted : ∀ e ∈ t' ++ es.flatMap noted, ∀ tok ∈ e.tokens, Readable tok := by
    intro e he
    rcases List.mem_append.1 he with he | he
    · exact hreadable e (List.mem_append_left _ he)
    · obtain ⟨e', he', he⟩ := List.mem_flatMap.1 he
      exact readable_noted (hreadable e' (List.mem_append_right _ he')) e he
  refine ⟨_, _, (t' ++ es.flatMap noted).flatMap replayed, ?_,
    mem_saved_keep (Transcript.render (t ++ es.flatMap noted)) s₁, ?_, ?_⟩
  · show (es.forM Session.note >>= fun _ => save).run s = _
    rw [StateT.run_bind, hrun]
    exact run_save ht₁
  · rw [htext]
    exact parseMany_render_eq hnoted
  · rw [filter_flatMap_eq filter_replayed, List.filter_append, filter_flatMap_eq filter_noted,
      ← List.filter_append]

/-! ### The beginning of a transcript -/

/-- A symbol that is a number is written like the numeral. -/
theorem render_symbol_toString (n : UInt64) :
    (Atom.symbol (toString n.toNat)).render = (Atom.numeral n).render := by
  have hdigits : ∀ c ∈ (toString n.toNat).toList, c.isDigit = true := by
    rw [Nat.toString_eq_ofList_toDigits, String.toList_ofList]
    exact fun c hc => Nat.isDigit_of_mem_toDigits (by decide) (Nat.le_refl 10) hc
  have hbar : '|' ∉ (toString n.toNat).toList := fun hc => absurd (hdigits _ hc) (by decide)
  have hmarked : isMarked (toString n.toNat) = false := by
    rw [isMarked, List.any_eq_false]
    intro c hc hmark
    simp only [Bool.or_eq_true, decide_eq_true_eq] at hmark
    have hdigit := hdigits c hc
    rcases hmark with (rfl | rfl) | rfl <;> cases hdigit
  refine String.toList_injective ?_
  rw [render_symbol, hmarked, if_neg Bool.false_ne_true, if_neg hbar]
  rfl

/-- An option that is set to a number is written like one that is set to the numeral. -/
theorem renderEntry_option (name : String) (n : UInt64) :
    renderEntry (.app "set-option" [.symbol name, .symbol (toString n.toNat)]) =
      renderEntry (.app "set-option" [.symbol name, .numeral n]) := by
  have hentry (a : Atom) : renderEntry (.app "set-option" [.symbol name, .atom a]) =
      "(" ++ ((symbol "set-option").render ++ " " ++ ((symbol name).render ++ " " ++
        (a.render ++ "" ++ ""))) ++ ")" := by
    show Sexp.render (.list _) = _
    rw [render_list, renderItems_cons _ _ rfl, renderItems_cons _ _ rfl, renderItems_cons _ _ rfl,
      renderItems_nil, render_atom]
    rfl
  have hsymbol := hentry (.symbol (toString n.toNat))
  rw [render_symbol_toString] at hsymbol
  exact hsymbol.trans (hentry (.numeral n)).symm

/-- An option of a solver is a name, and it is set to a name or to a number. -/
def IsOption (option : String × String) : Prop :=
  IsName (":" ++ option.1) ∧ (IsName option.2 ∨ ∃ n : UInt64, option.2 = toString n.toNat)

theorem isOption_addOption {l : Launch} {name value : String}
    (hl : ∀ option ∈ l.options, IsOption option) (h : IsOption (name, value)) :
    ∀ option ∈ (l.addOption name value).options, IsOption option := by
  intro option hoption
  rcases List.mem_append.1 hoption with hoption | hoption
  · exact hl option hoption
  · exact List.mem_singleton.1 hoption ▸ h

/-- Options are written like readable commands. -/
theorem exists_written_option {option : String × String} (h : IsOption option) :
    ∃ e, renderEntry (.app "set-option" [.symbol (":" ++ option.1), .symbol option.2]) =
      renderEntry e ∧ ∀ tok ∈ e.tokens, Readable tok := by
  have hreadable {e : Sexp} (he : e.Legible) :
      ∀ tok ∈ (Sexp.app "set-option" [.symbol (":" ++ option.1), e]).tokens, Readable tok :=
    fun tok htok =>
      (legible_app_pair (by decide) (legible_symbol h.1.isLegible) he tok htok).1
  rcases h.2 with hvalue | ⟨n, hvalue⟩
  · exact ⟨_, rfl, hreadable (legible_symbol hvalue.isLegible)⟩
  · exact ⟨_, by rw [hvalue, renderEntry_option], hreadable (legible_numeral n)⟩

theorem exists_written_options {options : List (String × String)}
    (h : ∀ option ∈ options, IsOption option) :
    ∃ t : Transcript, (options.map fun option =>
      Sexp.app "set-option" [.symbol (":" ++ option.1), .symbol option.2]).map renderEntry =
        t.map renderEntry ∧ ∀ e ∈ t, ∀ tok ∈ e.tokens, Readable tok := by
  induction options with
  | nil => exact ⟨[], rfl, by simp⟩
  | cons option options ih =>
    obtain ⟨hoption, hoptions⟩ := List.forall_mem_cons.1 h
    obtain ⟨e, he, hreadable⟩ := exists_written_option hoption
    obtain ⟨t, ht, hreadables⟩ := ih hoptions
    refine ⟨e :: t, ?_, List.forall_mem_cons.2 ⟨hreadable, hreadables⟩⟩
    rw [List.map_cons, List.map_cons, List.map_cons, he, ht]

/-- What a solver is told first is written like readable commands. -/
theorem exists_written_preamble {l : Launch} (hoptions : ∀ option ∈ l.options, IsOption option)
    (hlogic : IsName l.logic) :
    ∃ t : Transcript, (preamble l).map renderEntry = t.map renderEntry ∧
      ∀ e ∈ t, ∀ tok ∈ e.tokens, Readable tok := by
  obtain ⟨t, ht, hreadable⟩ := exists_written_options hoptions
  have hpreamble : preamble l = (l.options.map fun option =>
      Sexp.app "set-option" [.symbol (":" ++ option.1), .symbol option.2]) ++
        [.app "set-logic" [.symbol l.logic]] := rfl
  have hlegible : (Sexp.app "set-logic" [.symbol l.logic]).Legible :=
    legible_app (by decide) fun x hx =>
      List.mem_singleton.1 hx ▸ legible_symbol hlogic.isLegible
  refine ⟨t ++ [.app "set-logic" [.symbol l.logic]], ?_, fun e he => ?_⟩
  · rw [hpreamble, List.map_append, ht, List.map_append]
  · rcases List.mem_append.1 he with he | he
    · exact hreadable e he
    · exact fun tok htok => (hlegible tok (List.mem_singleton.1 he ▸ htok)).1

theorem isComment_preamble {l : Launch} : ∀ e ∈ preamble l, e.isComment = false := by
  intro e he
  rcases List.mem_append.1 he with he | he
  · obtain ⟨option, -, rfl⟩ := List.mem_map.1 he
    rfl
  · rw [List.mem_singleton.1 he]
    rfl

/-- Commands are noted by sending them. -/
theorem forM_note (h : ∀ e ∈ es, e.isComment = false) :
    es.forM Session.note = es.forM Session.send ∧ es.flatMap noted = es := by
  induction es with
  | nil => exact ⟨rfl, rfl⟩
  | cons e es ih =>
    obtain ⟨he, hes⟩ := List.forall_mem_cons.1 h
    obtain ⟨hrun, hnoted⟩ := ih hes
    have hnote : Session.note e = Session.send e ∧ noted e = [e] := by
      cases e with
      | comment text => cases he
      | atom | list => exact ⟨rfl, rfl⟩
    refine ⟨?_, ?_⟩
    · show (Session.note e >>= fun _ => es.forM Session.note) = _
      rw [hnote.1, hrun]
      rfl
    · rw [List.flatMap_cons, hnote.2, hnoted]
      rfl

/-- A transcript begins with the command line, and then has what the solver is told first. -/
theorem going_start {programs : Programs} {launch : Nat} {l : Launch}
    (h : start programs launch l true = .ok s) : s.Going ∧ s.transcript =
      some (.comment l.commandLine :: preamble (l.addOption "produce-models" "true")) := by
  rw [start] at h
  split at h
  next => cases h
  next solver _ =>
    obtain ⟨hrun, hnoted⟩ :=
      forM_note (isComment_preamble (l := l.addOption "produce-models" "true"))
    obtain ⟨s', hrun', hgoing, htranscript⟩ := Going.notes
      (s := ⟨.running false, solver launch, [], some [.comment l.commandLine], [], [], false⟩)
      ⟨⟨false, rfl⟩, by simp⟩ (preamble (l.addOption "produce-models" "true"))
    rw [hrun] at hrun'
    rw [hnoted] at htranscript
    obtain rfl : s' = s := (congrArg Prod.snd hrun').symm.trans (Except.ok.inj h)
    exact ⟨hgoing, htranscript⟩

/-- From the start of a session that keeps a transcript, what it saves is read as the options and
the logic of the solver and then what was noted, comments apart. -/
theorem exists_saved_of_start {programs : Programs} {launch : Nat} {l : Launch}
    (hstart : start programs launch l true = .ok s) (hcommand : '\n' ∉ l.commandLine.toList)
    (hoptions : ∀ option ∈ l.options, IsOption option) (hlogic : IsName l.logic)
    (hreadable : ∀ e ∈ es, ∀ tok ∈ e.tokens, Readable tok) :
    ∃ (t : Transcript) (text : String) (s' : Session) (read : List Sexp),
      t.map renderEntry = (preamble (l.addOption "produce-models" "true")).map renderEntry ∧
      (do es.forM Session.note; save).run s = (some text, s') ∧ text ∈ s'.saved ∧
      parseMany text = .ok read ∧
      read.filter (!·.isComment) = (t ++ es).filter (!·.isComment) := by
  obtain ⟨hgoing, htranscript⟩ := going_start hstart
  have hmodels : IsOption ("produce-models", "true") := ⟨.inl (by decide), .inl (.inl (by decide))⟩
  obtain ⟨t, ht, hpreamble⟩ := exists_written_preamble (isOption_addOption hoptions hmodels) hlogic
  have hbegin : ∀ tok ∈ (Sexp.comment l.commandLine).tokens, Readable tok := fun tok htok =>
    List.mem_singleton.1 htok ▸ hcommand
  have hall : ∀ e ∈ (.comment l.commandLine :: t) ++ es, ∀ tok ∈ e.tokens, Readable tok := by
    intro e he
    rcases List.mem_cons.1 he with rfl | he
    · exact hbegin
    · exact (List.mem_append.1 he).elim (hpreamble e) (hreadable e)
  have hwritten : (.comment l.commandLine :: preamble (l.addOption "produce-models" "true")).map
      renderEntry = (.comment l.commandLine :: t).map renderEntry := by
    rw [List.map_cons, ht, List.map_cons]
  obtain ⟨text, s', read, hrun, hsaved, hparse, hread⟩ :=
    hgoing.exists_saved htranscript hwritten es hall
  exact ⟨t, text, s', read, ht.symm, hrun, hsaved, hparse, hread⟩

/-! ### The options of known solvers -/

variable {l : Launch} {n : Nat}

theorem isOption_number {name : String} (hname : IsName (":" ++ name)) (hn : n < UInt64.size) :
    IsOption (name, toString n) :=
  ⟨hname, .inr ⟨.ofNat n, by rw [UInt64.toNat_ofNat_of_lt' hn]⟩⟩

theorem isOption_setTimeout (kind : SolverKind) {timeout : Option Nat}
    (hl : ∀ option ∈ l.options, IsOption option) (htimeout : ∀ ms ∈ timeout, ms < UInt64.size) :
    ∀ option ∈ (l.setTimeout kind timeout).options, IsOption option := by
  have hlimit (n : Nat) (hn : n < UInt64.size) : timeout.getD n < UInt64.size := by
    cases timeout with
    | none => exact hn
    | some ms => exact htimeout ms rfl
  cases kind with
  | z3 => exact isOption_addOption hl (isOption_number (.inl (by decide)) (hlimit _ (by decide)))
  | cvc5 => exact isOption_addOption hl (isOption_number (.inl (by decide)) (hlimit _ (by decide)))

theorem isOption_setSeed (kind : SolverKind) (hl : ∀ option ∈ l.options, IsOption option)
    (hn : n < UInt64.size) :
    ∀ option ∈ (l.setSeed kind n).options, IsOption option := by
  cases kind with
  | z3 =>
    exact isOption_addOption (isOption_addOption hl (isOption_number (.inl (by decide)) hn))
      (isOption_number (.inl (by decide)) hn)
  | cvc5 => exact isOption_addOption hl (isOption_number (.inl (by decide)) hn)

theorem isOption_new (kind : SolverKind) (command : String) :
    ∀ option ∈ (Launch.new kind command).options, IsOption option := by
  cases kind with
  | z3 =>
    refine isOption_setTimeout .z3 (fun option hoption => ?_) (by simp)
    rw [List.mem_singleton.1 hoption]
    exact ⟨.inl (by decide), .inl (.inl (by decide))⟩
  | cvc5 =>
    intro option hoption
    simp only [Launch.new, List.mem_cons, List.not_mem_nil, or_false] at hoption
    rcases hoption with rfl | rfl | rfl
    · exact ⟨.inl (by decide), .inl (.inl (by decide))⟩
    · exact ⟨.inl (by decide), .inl (.inl (by decide))⟩
    · exact isOption_number (n := 1) (.inl (by decide)) (by decide)

/-- The options that the solver oracle sets are such options. -/
theorem isOption_launch {conf : SmtConfig} (htimeout : ∀ ms ∈ conf.timeout, ms < UInt64.size)
    (hseed : conf.seed < UInt64.size) : ∀ option ∈ conf.launch.options, IsOption option := by
  have hlimited := isOption_setTimeout conf.kind (isOption_new conf.kind conf.command) htimeout
  rw [SmtConfig.launch]
  dsimp only
  split
  · exact hlimited
  · exact isOption_setSeed conf.kind hlimited hseed

end Session

end InvariantSearch
