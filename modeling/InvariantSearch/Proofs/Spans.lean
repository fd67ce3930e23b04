import InvariantSearch.Problem.Command
import InvariantSearch.Proofs.Tiles

/-!
# The places of trees and commands

A text that is read as a sequence of trees is made up of blanks and of one part for each tree. So
the spans of the trees come one after the other (`Tiles.pairwise`), what they leave out is blank
(`Tiles.isBlank_or_mem`), and what a span selects is read as its tree alone (`Tiles.selects`). A
command of a problem, or a tree that is no command, stands at the span of one of the trees
(`standsAt_of_parseProblem`, `standsAt_of_malformed`). `spans_faithful` puts this together.
-/

namespace InvariantSearch

/-! ## Parts of a text -/

theorem eq_of_toList_eq_append {a b : String} {more : List Char}
    (hmore : b.toList = a.toList ++ more) (hsize : a.utf8ByteSize = b.utf8ByteSize) : a = b := by
  have hb : b = a ++ String.ofList more := by
    rw [← String.toList_inj, String.toList_append, String.toList_ofList, hmore]
  rw [hb, String.utf8ByteSize_append] at hsize
  have hnil : String.ofList more = "" := String.utf8ByteSize_eq_zero_iff.1 (by omega)
  rw [hb, hnil, String.append_empty]

/-- Where two texts begin alike and the beginnings take as many bytes, these are the same. -/
theorem eq_of_append_eq {first first' second second' : String}
    (h : first ++ second = first' ++ second')
    (hsize : first.utf8ByteSize = first'.utf8ByteSize) : first = first' := by
  have hlists : first.toList ++ second.toList = first'.toList ++ second'.toList := by
    rw [← String.toList_append, h, String.toList_append]
  rcases List.append_eq_append_iff.1 hlists with ⟨more, hmore, -⟩ | ⟨more, hmore, -⟩
  · exact eq_of_toList_eq_append hmore hsize
  · exact (eq_of_toList_eq_append hmore hsize.symm).symm

/-- The span selects this part of the text: the part stands there, between characters, from the
first to the last of the bytes. -/
def Span.Selects (span : Span) (text part : String) : Prop :=
  ∃ before after, text = before ++ part ++ after ∧ span.start = before.utf8ByteSize ∧
    span.stop = (before ++ part).utf8ByteSize

namespace Span.Selects

variable {span : Span} {text part part' : String}

theorem append (h : span.Selects text part) (more : String) : span.Selects (text ++ more) part := by
  obtain ⟨before, after, rfl, hstart, hstop⟩ := h
  exact ⟨before, after ++ more, String.append_assoc, hstart, hstop⟩

/-- A span selects no more than one part of a text. -/
theorem unique (h : span.Selects text part) (h' : span.Selects text part') : part = part' := by
  obtain ⟨before, after, rfl, hstart, hstop⟩ := h
  obtain ⟨before', after', htext, hstart', hstop'⟩ := h'
  have hparts : before ++ part = before' ++ part' :=
    eq_of_append_eq htext (hstop.symm.trans hstop')
  obtain rfl : before = before' := eq_of_append_eq hparts (hstart.symm.trans hstart')
  exact (String.append_right_inj before).1 hparts

end Span.Selects

namespace Sexp

open Reader

/-! ## The places of the trees -/

theorem utf8ByteSize_pos_of_parse {part : String} {e : Sexp} (h : parse part = .ok e) :
    0 < part.utf8ByteSize := by
  by_contra hzero
  obtain rfl : part = "" := String.utf8ByteSize_eq_zero_iff.1 (by omega)
  obtain ⟨rest, hreads⟩ := parse_eq_ok_iff.1 h
  cases hreads

/-- A character of a text in two parts stands in the first part or in the second. -/
theorem split_append_cons {α : Type} {first second before after : List α} {c : α}
    (h : first ++ second = before ++ c :: after) :
    (∃ after', first = before ++ c :: after') ∨
      ∃ before', before = first ++ before' ∧ second = before' ++ c :: after := by
  rcases List.append_eq_append_iff.1 h with ⟨before', hbefore, hsecond⟩ | ⟨rest, hfirst, hrest⟩
  · exact .inr ⟨before', hbefore, hsecond⟩
  · rcases List.cons_eq_append_iff.1 hrest with ⟨rfl, hsecond⟩ | ⟨after', rfl, -⟩
    · exact .inr ⟨[], by simpa using hfirst.symm, by simpa using hsecond⟩
    · exact .inl ⟨after', hfirst⟩

namespace Reader.Tiles

variable {text : String} {done : List (Span × Sexp)}

/-- Every tree takes some bytes of the text. -/
theorem start_lt_stop (h : Tiles text done) : ∀ p ∈ done, p.1.start < p.1.stop := by
  induction h with
  | nil => simp
  | blank _ _ ih => exact ih
  | @tree text part _ _ _ hparse ih =>
    have hpos := utf8ByteSize_pos_of_parse hparse
    refine List.forall_mem_cons.2 ⟨?_, ih⟩
    show text.utf8ByteSize < (text ++ part).utf8ByteSize
    rw [String.utf8ByteSize_append]
    omega

theorem stop_le (h : Tiles text done) : ∀ p ∈ done, p.1.stop ≤ text.utf8ByteSize := by
  induction h with
  | nil => simp
  | blank _ _ ih =>
    intro p hp
    rw [String.utf8ByteSize_push]
    exact Nat.le_add_right_of_le (ih p hp)
  | tree _ _ ih =>
    refine List.forall_mem_cons.2 ⟨Nat.le_refl _, fun p hp => ?_⟩
    rw [String.utf8ByteSize_append]
    exact Nat.le_add_right_of_le (ih p hp)

/-- A later tree begins where an earlier one has ended. -/
theorem pairwise (h : Tiles text done) : done.Pairwise fun p q => q.1.stop ≤ p.1.start := by
  induction h with
  | nil => exact List.Pairwise.nil
  | blank _ _ ih => exact ih
  | tree h _ ih => exact List.pairwise_cons.2 ⟨h.stop_le, ih⟩

/-- What a span selects is read as the tree. -/
theorem selects (h : Tiles text done) :
    ∀ p ∈ done, ∃ part, p.1.Selects text part ∧ parse part = .ok p.2 := by
  induction h with
  | nil => simp
  | @blank text done c _ _ ih =>
    intro p hp
    obtain ⟨part, hselects, hparse⟩ := ih p hp
    refine ⟨part, ?_, hparse⟩
    rw [String.push_eq_append]
    exact hselects.append _
  | @tree text part done e _ hparse ih =>
    refine List.forall_mem_cons.2 ⟨⟨part, ⟨text, "", ?_, rfl, rfl⟩, hparse⟩, fun p hp => ?_⟩
    · rw [String.append_empty]
    · obtain ⟨part', hselects, hparse'⟩ := ih p hp
      exact ⟨part', hselects.append part, hparse'⟩

/-- A character that belongs to no tree is a blank. -/
theorem isBlank_or_mem (h : Tiles text done) : ∀ before c after,
    text.toList = before ++ c :: after → isBlank c = true ∨ ∃ p ∈ done,
      p.1.start ≤ (String.ofList before).utf8ByteSize ∧
        (String.ofList before).utf8ByteSize < p.1.stop := by
  induction h with
  | nil => simp
  | @blank text done c hdone hc ih =>
    intro before d after htext
    rw [String.toList_push] at htext
    rcases split_append_cons htext with ⟨after', hfirst⟩ | ⟨before', -, hsecond⟩
    · exact ih before d after' hfirst
    · obtain rfl : d = c := by
        have hmem : d ∈ [c] := by simp [hsecond]
        exact List.mem_singleton.1 hmem
      exact .inl hc
  | @tree text part done e _ hparse ih =>
    intro before d after htext
    rw [String.toList_append] at htext
    rcases split_append_cons htext with ⟨after', hfirst⟩ | ⟨before', rfl, hsecond⟩
    · rcases ih before d after' hfirst with hblank | ⟨p, hp, hspan⟩
      · exact .inl hblank
      · exact .inr ⟨p, List.mem_cons_of_mem _ hp, hspan⟩
    · refine .inr ⟨_, List.mem_cons_self, ?_, ?_⟩
      · simp [String.ofList_append]
      · have hpart : part = String.ofList before' ++ String.ofList ([d] ++ after) := by
          rw [← String.ofList_append, List.singleton_append, ← hsecond, String.ofList_toList]
        have hchar : 0 < (String.ofList [d]).utf8ByteSize := by
          rw [← String.singleton_eq_ofList, String.utf8ByteSize_singleton]
          exact d.utf8Size_pos
        simp only [hpart, String.ofList_append, String.ofList_toList, String.utf8ByteSize_append]
        omega

end Reader.Tiles

end Sexp

/-! ## The places of commands -/

section Traverse

variable {ε α β : Type} {f : α → Except ε β} {as : List α}

theorem exists_of_mapM_eq_error {err : ε} (h : as.mapM f = .error err) :
    ∃ a ∈ as, f a = .error err := by
  induction as with
  | nil => cases h
  | cons a as ih =>
    rw [List.mapM_cons] at h
    rcases bind_eq_error_iff.1 h with ha | ⟨b, -, h⟩
    · exact ⟨a, List.mem_cons_self, ha⟩
    · rcases bind_eq_error_iff.1 h with has | ⟨bs, -, h⟩
      · obtain ⟨a', ha', herror⟩ := ih has
        exact ⟨a', List.mem_cons_of_mem a ha', herror⟩
      · cases h

theorem exists_of_mem_mapM {bs : List β} (h : as.mapM f = .ok bs) {b : β} (hb : b ∈ bs) :
    ∃ a ∈ as, f a = .ok b := by
  induction as generalizing bs with
  | nil =>
    obtain rfl := Except.ok.inj h
    simp at hb
  | cons a as ih =>
    rw [List.mapM_cons] at h
    obtain ⟨b', ha, h⟩ := bind_eq_ok_iff.1 h
    obtain ⟨bs', has, h⟩ := bind_eq_ok_iff.1 h
    obtain rfl := Except.ok.inj h
    rcases List.mem_cons.1 hb with rfl | hb
    · exact ⟨a, List.mem_cons_self, ha⟩
    · obtain ⟨a', ha', hok⟩ := ih has hb
      exact ⟨a', List.mem_cons_of_mem a ha', hok⟩

end Traverse

/-- Among the trees there is one with this span that, without the comments in it, is read with this
result as a command. -/
def Command.StandsAt (es : List (Span × Sexp)) (span : Span)
    (result : Except Malformed Command) : Prop :=
  ∃ e e', (span, e) ∈ es ∧ e.withoutComments = some e' ∧ Command.ofSexp e' = result

theorem Command.ofSpanned_eq_ok {span span' : Span} {e : Sexp} {c : Command}
    (h : Command.ofSpanned span e = .ok (some (span', c))) :
    span' = span ∧ ∃ e', e.withoutComments = some e' ∧ Command.ofSexp e' = .ok c := by
  unfold Command.ofSpanned at h
  split at h
  next => cases h
  next e' he =>
    split at h
    next c' hc =>
      obtain ⟨rfl, rfl⟩ := Prod.mk.inj (Option.some.inj (Except.ok.inj h))
      exact ⟨rfl, e', he, hc⟩
    next => cases h

theorem Command.ofSpanned_eq_error {span : Span} {e : Sexp} {err : ProblemError}
    (h : Command.ofSpanned span e = .error err) : ∃ malformed, err = .malformed malformed span ∧
      ∃ e', e.withoutComments = some e' ∧ Command.ofSexp e' = .error malformed := by
  unfold Command.ofSpanned at h
  split at h
  next => cases h
  next e' he =>
    split at h
    next => cases h
    next malformed hc => exact ⟨malformed, (Except.error.inj h).symm, e', he, hc⟩

section Problem

variable {text : String} {es : List (Span × Sexp)} (h : Sexp.parseSpanned text = .ok es)

include h

theorem standsAt_of_parseProblem {cs : List (Span × Command)} (hparse : parseProblem text = .ok cs)
    {p : Span × Command} (hp : p ∈ cs) : Command.StandsAt es p.1 (.ok p.2) := by
  rw [parseProblem, h] at hparse
  obtain ⟨commands, hcommands, hcs⟩ := bind_eq_ok_iff.1 hparse
  obtain rfl := Except.ok.inj hcs
  obtain ⟨o, ho, rfl⟩ := List.mem_filterMap.1 hp
  obtain ⟨⟨span, e⟩, hmem, hok⟩ := exists_of_mem_mapM hcommands ho
  obtain ⟨hspan, e', he, hc⟩ := Command.ofSpanned_eq_ok (c := p.2) hok
  rw [hspan]
  exact ⟨e, e', hmem, he, hc⟩

theorem standsAt_of_malformed {err : Malformed} {span : Span}
    (hparse : parseProblem text = .error (.malformed err span)) :
    Command.StandsAt es span (.error err) := by
  rw [parseProblem, h] at hparse
  rcases bind_eq_error_iff.1 hparse with hcommands | ⟨commands, -, hcs⟩
  · obtain ⟨⟨span', e⟩, hmem, herror⟩ := exists_of_mapM_eq_error hcommands
    obtain ⟨malformed, heq, e', he, hc⟩ := Command.ofSpanned_eq_error herror
    obtain ⟨rfl, rfl⟩ := ProblemError.malformed.inj heq
    exact ⟨e, e', hmem, he, hc⟩
  · cases hcs

end Problem

/-- Let a text be read as a sequence of trees with their spans. Reading it without the spans gives
the same trees. The spans lie within the text, one after the other and none empty, and every
character outside of them is a blank. What a span selects is read as its tree alone. A command of
the problem that the text states, and a tree of it that is no command, come with the span of one of
the trees, from which they are read. -/
theorem spans_faithful {text : String} {es : List (Span × Sexp)}
    (h : Sexp.parseSpanned text = .ok es) :
    Sexp.parseMany text = .ok (es.map (·.2)) ∧
    (∀ p ∈ es, p.1.start < p.1.stop ∧ p.1.stop ≤ text.utf8ByteSize) ∧
    es.Pairwise (fun p q => p.1.stop ≤ q.1.start) ∧
    (∀ before c after, text.toList = before ++ c :: after → Sexp.isBlank c = true ∨ ∃ p ∈ es,
      p.1.start ≤ (String.ofList before).utf8ByteSize ∧
        (String.ofList before).utf8ByteSize < p.1.stop) ∧
    (∀ p ∈ es, ∃ part, p.1.Selects text part ∧ Sexp.parse part = .ok p.2 ∧
      ∀ part', p.1.Selects text part' → part' = part) ∧
    (∀ cs, parseProblem text = .ok cs → ∀ p ∈ cs, Command.StandsAt es p.1 (.ok p.2)) ∧
    ∀ err span, parseProblem text = .error (.malformed err span) →
      Command.StandsAt es span (.error err) := by
  have tiles := Sexp.tiles_of_parseSpanned h
  refine ⟨?_, fun p hp => ?_, ?_, fun before c after htext => ?_, fun p hp => ?_,
    fun cs hparse p hp => standsAt_of_parseProblem h hparse hp,
    fun err span hparse => standsAt_of_malformed h hparse⟩
  · rw [Sexp.parseMany, h]
    rfl
  · have hmem := List.mem_reverse.2 hp
    exact ⟨tiles.start_lt_stop p hmem, tiles.stop_le p hmem⟩
  · exact List.pairwise_reverse.1 tiles.pairwise
  · simpa using tiles.isBlank_or_mem before c after htext
  · obtain ⟨part, hselects, hparse⟩ := tiles.selects p (List.mem_reverse.2 hp)
    exact ⟨part, hselects, hparse, fun part' hselects' => hselects'.unique hselects⟩

/-- No blank stands between these trees: a command, a comment with a character of two bytes and the
newline that ends it, a quoted symbol, a numeral and a symbol. The quoted symbol is no command. -/
theorem spans_faithful_adjacent :
    let text := "(check-synth);é\n|a|1x"
    let es : List (Span × Sexp) := [(⟨0, 13⟩, .app "check-synth" []), (⟨13, 17⟩, .comment "é"),
      (⟨17, 20⟩, .symbol "a"), (⟨20, 21⟩, .numeral 1), (⟨21, 22⟩, .symbol "x")]
    let err : Malformed := .command (.symbol "a")
    Sexp.parseSpanned text = .ok es ∧
    (∀ p ∈ es, ∃ part, p.1.Selects text part ∧ Sexp.parse part = .ok p.2 ∧
      ∀ part', p.1.Selects text part' → part' = part) ∧
    parseProblem text = .error (.malformed err ⟨17, 20⟩) ∧
    Command.StandsAt es ⟨17, 20⟩ (.error err) ∧
    parseProblem "(check-synth)" = .ok [(⟨0, 13⟩, .checkSynth)] ∧
    Command.StandsAt [(⟨0, 13⟩, .app "check-synth" [])] ⟨0, 13⟩ (.ok .checkSynth) := by
  intro text es err
  have hparse : Sexp.parseSpanned text = .ok es := by decide +kernel
  have herror : parseProblem text = .error (.malformed err ⟨17, 20⟩) := by decide +kernel
  have hone : Sexp.parseSpanned "(check-synth)" = .ok [(⟨0, 13⟩, .app "check-synth" [])] := by
    decide +kernel
  have hcommand : parseProblem "(check-synth)" = .ok [(⟨0, 13⟩, .checkSynth)] := by decide +kernel
  obtain ⟨-, -, -, -, hselects, -, hmalformed⟩ := spans_faithful hparse
  obtain ⟨-, -, -, -, -, hcommands, -⟩ := spans_faithful hone
  exact ⟨hparse, hselects, herror, hmalformed err ⟨17, 20⟩ herror, hcommand,
    hcommands _ hcommand _ (List.mem_singleton_self _)⟩

end InvariantSearch
