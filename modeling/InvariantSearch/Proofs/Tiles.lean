import InvariantSearch.Proofs.Reading
import InvariantSearch.Proofs.Typing

/-!
# The parts of a text that are read as trees

A text that is read as a sequence of trees is made up of blanks and of one part for each tree
(`Reader.Tiles`). The part holds the tree and nothing else, although no blank is needed between two
parts, and a comment takes its newline with it.

The reader takes one character at a time, and `Reader.Taken` lists all that a character can do. What
has been read is made up in that way, but for the part of a tree that is not yet finished
(`Reader.Follows`). Of this part it is known how the reader of a single tree takes it
(`Reader.Leads`), so that in the end the part is read as the tree. Every step keeps this
(`Follows.step`), and so does a run (`Follows.run`).
-/

namespace InvariantSearch

namespace Sexp

namespace Reader

open State

variable {s t : State} {c : Char} {mode mode' : Mode} {σ σ' : Shape} {e : Sexp}
  {also : List Expected} {text before current : String} {done : List (Span × Sexp)} {stop : Nat}

theorem push_append (text part : String) (c : Char) :
    (text ++ part).push c = text ++ part.push c := by
  rw [String.push_eq_append, String.push_eq_append, String.append_assoc]

theorem pos_add {pos : Nat} (hpos : pos = (before ++ current).utf8ByteSize) (c : Char) :
    pos + c.utf8Size = (before ++ current.push c).utf8ByteSize := by
  rw [hpos, ← push_append, String.utf8ByteSize_push]

/-! ## What a step does -/

/-- What the character does that stands after a complete token or a blank. For each case it is said
how a reader of a single tree takes the character. -/
inductive Dispatched (s : State) (c : Char) : State → Prop
  | blank (hc : isBlank c = true) (htake : ∀ σ : Shape, σ.dispatch true c = some (.between, σ)) :
      Dispatched s c s
  /-- The character begins a token. -/
  | token {mode : Mode} (hmode : mode ≠ .between)
      (htake : ∀ σ : Shape, σ.isFull true = false → σ.dispatch true c = some (mode, σ)) :
      Dispatched s c (s.begin mode)
  /-- The character begins a list. -/
  | openList (htake : ∀ σ : Shape, σ.isFull true = false →
        σ.dispatch true c = some (.between, σ.openList)) :
      Dispatched s c { s.begin .between with enclosing := [] :: s.enclosing }
  /-- The character ends the innermost list. -/
  | closeList {items : List Sexp} {outer : List (List Sexp)}
      (hframes : s.enclosing = items :: outer)
      (htake : ∀ trees, Shape.dispatch true ⟨items :: outer, trees⟩ c =
        some (.between, Shape.push ⟨outer, trees⟩ (.list items.reverse))) :
      Dispatched s c ({ s with enclosing := outer }.push (.list items.reverse) (s.pos + c.utf8Size))

theorem dispatched_of_dispatch (h : s.dispatch false also c = .ok t) : Dispatched s c t := by
  unfold State.dispatch at h
  -- a reader of any number of trees is never full, so a token may begin
  simp only [State.isFull, Bool.false_and, Bool.false_eq_true, if_false] at h
  split_ifs at h with hblank hdouble hbar hsemicolon hopen hclose hdigit hstart
  · obtain rfl := Except.ok.inj h
    exact .blank hblank fun σ => if_pos hblank
  · obtain rfl := Except.ok.inj h
    exact .token (by simp) fun σ hσ => by simp [Shape.dispatch, hσ, hdouble, isBlank]
  · obtain rfl := Except.ok.inj h
    exact .token (by simp) fun σ hσ => by simp [Shape.dispatch, hσ, hbar, isBlank]
  · obtain rfl := Except.ok.inj h
    exact .token (by simp) fun σ hσ => by simp [Shape.dispatch, hσ, hsemicolon, isBlank]
  · obtain rfl := Except.ok.inj h
    exact .openList fun σ hσ => by simp [Shape.dispatch, hσ, hopen, isBlank]
  · cases hframes : s.enclosing with
    | nil => simp [hframes] at h
    | cons items outer =>
      simp only [hframes, Except.ok.injEq] at h
      subst h
      exact .closeList hframes fun trees => by
        simp [Shape.dispatch, Shape.isFull, Shape.closeList, hclose, isBlank]
  · obtain rfl := Except.ok.inj h
    exact .token (by simp) fun σ hσ => by
      rw [dispatch_of_isSymbolChar hσ (isSymbolChar_of_isDigit hdigit), if_pos hdigit]
  · obtain rfl := Except.ok.inj h
    exact .token (by simp) fun σ hσ => by
      rw [dispatch_of_isSymbolChar hσ (isSymbolChar_of_start hstart), if_neg hdigit, if_pos hstart]

/-- A token that ends adds its tree, which ends at the current offset. -/
theorem settle_cases (h : s.settle = .ok t) (hmode : s.mode ≠ .between) :
    ∃ e, t = s.push e s.pos ∧ ∀ σ, s.mode.settle σ = some (σ.push e) := by
  unfold State.settle at h
  split at h
  next hbetween => exact absurd hbetween hmode
  next hsymbol =>
    obtain rfl := Except.ok.inj h
    exact ⟨_, rfl, fun σ => by rw [hsymbol, Mode.settle, Shape.pushSymbol]⟩
  next hnumeral =>
    split at h
    next hlt =>
      obtain rfl := Except.ok.inj h
      exact ⟨_, rfl, fun σ => by rw [hnumeral, Mode.settle, Shape.pushNumeral, if_pos hlt]⟩
    next => cases h
  next => cases h
  next hcomment =>
    obtain rfl := Except.ok.inj h
    exact ⟨_, rfl, fun σ => by rw [hcomment, Mode.settle, Shape.pushComment]⟩

/-- What a character does. If it belongs to the current token it prolongs or ends the token;
otherwise the token ends before it. -/
inductive Taken (s : State) (c : Char) : State → Prop
  | between {t : State} (hmode : s.mode = .between) (h : Dispatched s c t) : Taken s c t
  | prolongs {mode : Mode} (hmode : s.mode ≠ .between) (hmode' : mode ≠ .between)
      (htake : ∀ σ, s.mode.take true σ c = some (mode, σ)) : Taken s c { s with mode }
  | ends {e : Sexp} (hmode : s.mode ≠ .between)
      (htake : ∀ σ, s.mode.take true σ c = some (.between, σ.push e)) :
      Taken s c (s.push e (s.pos + c.utf8Size))
  | follows {e : Sexp} {t : State} (hmode : s.mode ≠ .between)
      (hsettle : ∀ σ, s.mode.settle σ = some (σ.push e))
      (htake : ∀ σ, s.mode.take true σ c = (σ.push e).dispatch true c)
      (h : Dispatched (s.push e s.pos) c t) : Taken s c t

theorem taken_of_settle (hmode : s.mode ≠ .between)
    (htake : ∀ σ, s.mode.take true σ c = (s.mode.settle σ).bind (·.dispatch true c))
    (h : s.settle.bind (State.dispatch false also · c) = .ok t) : Taken s c t := by
  obtain ⟨s', hsettle, hdispatch⟩ := bind_eq_ok_iff.1 h
  obtain ⟨e, rfl, hshape⟩ := settle_cases hsettle hmode
  refine .follows hmode hshape (fun σ => ?_) (dispatched_of_dispatch hdispatch)
  rw [htake, hshape, Option.bind_some]

theorem taken_of_take (h : s.take false c = .ok t) : Taken s c t := by
  unfold State.take at h
  cases hmode : s.mode with
  | between =>
    rw [hmode] at h
    exact .between hmode (dispatched_of_dispatch h)
  | symbol chars =>
    simp only [hmode] at h
    split at h
    next hc =>
      obtain rfl := Except.ok.inj h
      exact .prolongs (by simp [hmode]) (by simp) fun σ => by rw [hmode, Mode.take, if_pos hc]
    next hc =>
      exact taken_of_settle (by simp [hmode]) (fun σ => by rw [hmode, Mode.take, if_neg hc]; rfl) h
  | numeral value =>
    simp only [hmode] at h
    split at h
    next hc =>
      obtain rfl := Except.ok.inj h
      exact .prolongs (by simp [hmode]) (by simp) fun σ => by rw [hmode, Mode.take, if_pos hc]
    next hc =>
      exact taken_of_settle (by simp [hmode]) (fun σ => by rw [hmode, Mode.take, if_neg hc]; rfl) h
  | quoted mark chars =>
    simp only [hmode] at h
    split at h
    next hc =>
      obtain rfl := Except.ok.inj h
      exact .ends (by simp [hmode]) fun σ => by rw [hmode, Mode.take, if_pos hc, Shape.pushSymbol]
    next hc =>
      obtain rfl := Except.ok.inj h
      exact .prolongs (by simp [hmode]) (by simp) fun σ => by rw [hmode, Mode.take, if_neg hc]
  | comment chars =>
    simp only [hmode] at h
    split at h
    next hc =>
      obtain rfl := Except.ok.inj h
      exact .ends (by simp [hmode]) fun σ => by rw [hmode, Mode.take, if_pos hc, Shape.pushComment]
    next hc =>
      obtain rfl := Except.ok.inj h
      exact .prolongs (by simp [hmode]) (by simp) fun σ => by rw [hmode, Mode.take, if_neg hc]

theorem taken_of_step (h : s.step false c = .ok t) :
    ∃ u, Taken s c u ∧ t = { u with pos := s.pos + c.utf8Size } := by
  unfold State.step at h
  cases htake : s.take false c with
  | error err =>
    rw [htake] at h
    cases h
  | ok u =>
    rw [htake] at h
    exact ⟨u, taken_of_take htake, (Except.ok.inj h).symm⟩

/-! ## The part of one tree -/

/-- After these characters a reader of a single tree is in this mode and has read this. -/
def Leads (text : String) (mode : Mode) (σ : Shape) : Prop :=
  ∀ rest, reads true (text.toList ++ rest) .between .empty = reads true rest mode σ

theorem leads_empty : Leads "" .between .empty := by
  intro rest
  rfl

theorem Leads.push (h : Leads text mode σ) (htake : mode.take true σ c = some (mode', σ')) :
    Leads (text.push c) mode' σ' := by
  intro rest
  rw [String.toList_push, List.append_assoc, List.singleton_append, h, reads_cons, htake]
  rfl

/-- If the current token can end and no list is open, then the tree is complete. -/
theorem Leads.parse_eq (h : Leads text mode σ) (hsettle : mode.settle σ = some ⟨[], [e]⟩) :
    parse text = .ok e := by
  have hreads := h []
  rw [List.append_nil, reads, hsettle] at hreads
  exact parse_eq_ok_iff.2 ⟨[], hreads⟩

/-! ## What has been read -/

/-- The text is made up of blanks and of parts that are read as one tree each: the trees with their
bytes, the last one first. -/
inductive Tiles : String → List (Span × Sexp) → Prop
  | nil : Tiles "" []
  | blank {text : String} {done : List (Span × Sexp)} {c : Char} (h : Tiles text done)
      (hc : isBlank c = true) : Tiles (text.push c) done
  | tree {text part : String} {done : List (Span × Sexp)} {e : Sexp} (h : Tiles text done)
      (hparse : parse part = .ok e) :
      Tiles (text ++ part) ((⟨text.utf8ByteSize, (text ++ part).utf8ByteSize⟩, e) :: done)

/-- The reader of a sequence of trees has read the text. It stands between two trees, or within one
that is unfinished. -/
inductive Follows : String → State → Prop
  | idle {text : String} {s : State} (tiles : Tiles text s.done) (mode : s.mode = .between)
      (frames : s.enclosing = []) (pos : s.pos = text.utf8ByteSize) : Follows text s
  | within {before current : String} {s : State} (tiles : Tiles before s.done)
      (start : s.start = before.utf8ByteSize) (pos : s.pos = (before ++ current).utf8ByteSize)
      (leads : Leads current s.mode ⟨s.enclosing, []⟩)
      (unfinished : s.mode ≠ .between ∨ s.enclosing ≠ []) : Follows (before ++ current) s

theorem follows_initial : Follows "" .initial :=
  .idle .nil rfl rfl rfl

theorem push_of_frames_nil (hframes : s.enclosing = []) (e : Sexp) (stop : Nat) :
    s.push e stop = { s with mode := .between, done := (⟨s.start, stop⟩, e) :: s.done } := by
  rw [State.push, hframes]

theorem push_of_frames_cons {items : List Sexp} {outer : List (List Sexp)}
    (hframes : s.enclosing = items :: outer) (e : Sexp) (stop : Nat) :
    s.push e stop = { s with mode := .between, enclosing := (e :: items) :: outer } := by
  rw [State.push, hframes]

/-- A tree that ends belongs to the list around it, or is the next tree of the text. -/
theorem follows_push (tiles : Tiles before s.done) (start : s.start = before.utf8ByteSize)
    (leads : Leads current .between (Shape.push ⟨s.enclosing, []⟩ e))
    (hstop : stop = (before ++ current).utf8ByteSize) :
    Follows (before ++ current) { s.push e stop with pos := stop } := by
  cases hframes : s.enclosing with
  | nil =>
    rw [hframes] at leads
    rw [push_of_frames_nil hframes, start, hstop]
    exact .idle (tiles.tree (leads.parse_eq rfl)) rfl hframes rfl
  | cons items outer =>
    rw [hframes] at leads
    rw [push_of_frames_cons hframes]
    exact .within tiles start hstop leads (.inr (List.cons_ne_nil _ _))

/-- Between two trees a character is a blank or begins the next tree. -/
theorem Dispatched.follows_idle (h : Dispatched s c t) (tiles : Tiles text s.done)
    (hmode : s.mode = .between) (hframes : s.enclosing = []) (hpos : s.pos = text.utf8ByteSize) :
    Follows (text.push c) { t with pos := s.pos + c.utf8Size } := by
  have hpos' : s.pos + c.utf8Size = (text ++ "".push c).utf8ByteSize := by
    simp [hpos]
  have hstart (mode : Mode) : (s.begin mode).start = text.utf8ByteSize := by
    rw [State.begin, hframes, ← hpos]
    rfl
  have htext : text.push c = text ++ "".push c := String.push_eq_append c
  cases h with
  | blank hc => exact .idle (tiles.blank hc) hmode hframes (by simp [hpos])
  | @token mode hne htake =>
    rw [htext]
    refine .within tiles (hstart mode) hpos' ?_ (.inl hne)
    show Leads _ _ ⟨s.enclosing, []⟩
    rw [hframes]
    exact leads_empty.push (htake .empty rfl)
  | openList htake =>
    rw [htext]
    refine .within tiles (hstart .between) hpos' ?_ (.inr (List.cons_ne_nil _ _))
    show Leads _ .between ⟨[] :: s.enclosing, []⟩
    rw [hframes]
    exact leads_empty.push (htake .empty rfl)
  | closeList houter => simp [hframes] at houter

/-- Inside a list a character is a blank, begins an item, or ends the list. -/
theorem Dispatched.follows_nested (h : Dispatched s c t) (tiles : Tiles before s.done)
    (hmode : s.mode = .between) (hframes : s.enclosing ≠ []) (start : s.start = before.utf8ByteSize)
    (hpos : s.pos = (before ++ current).utf8ByteSize)
    (leads : ∀ mode' σ', Shape.dispatch true ⟨s.enclosing, []⟩ c = some (mode', σ') →
      Leads (current.push c) mode' σ') :
    Follows (before ++ current.push c) { t with pos := s.pos + c.utf8Size } := by
  have hpos' := pos_add hpos c
  obtain ⟨items, outer, hcons⟩ := List.exists_cons_of_ne_nil hframes
  have hfull : Shape.isFull true ⟨s.enclosing, []⟩ = false := by
    rw [hcons]
    rfl
  have hstart (mode : Mode) : (s.begin mode).start = before.utf8ByteSize := by
    rw [State.begin, hcons, ← start]
    rfl
  cases h with
  | blank _ htake => exact .within tiles start hpos' (hmode ▸ leads _ _ (htake _)) (.inr hframes)
  | @token mode hne htake =>
    exact .within tiles (hstart mode) hpos' (leads _ _ (htake _ hfull)) (.inl hne)
  | openList htake =>
    exact .within tiles (hstart .between) hpos' (leads _ _ (htake _ hfull))
      (.inr (List.cons_ne_nil _ _))
  | @closeList items outer houter htake =>
    exact follows_push (s := { s with enclosing := outer }) tiles start
      (leads _ _ (houter ▸ htake [])) hpos'

/-- A token that ends before a character is the next tree of the text, or an item of a list. -/
theorem Dispatched.follows_token (h : Dispatched (s.push e s.pos) c t) (tiles : Tiles before s.done)
    (start : s.start = before.utf8ByteSize) (hpos : s.pos = (before ++ current).utf8ByteSize)
    (leads : Leads current s.mode ⟨s.enclosing, []⟩)
    (hsettle : ∀ σ, s.mode.settle σ = some (σ.push e))
    (htake : ∀ σ, s.mode.take true σ c = (σ.push e).dispatch true c) :
    Follows (before ++ current.push c) { t with pos := s.pos + c.utf8Size } := by
  cases hframes : s.enclosing with
  | nil =>
    rw [push_of_frames_nil hframes] at h
    rw [hframes] at leads
    have tiles' : Tiles (before ++ current) ((⟨s.start, s.pos⟩, e) :: s.done) := by
      rw [start, hpos]
      exact tiles.tree (leads.parse_eq (hsettle _))
    rw [← push_append]
    exact h.follows_idle tiles' rfl hframes hpos
  | cons items outer =>
    rw [push_of_frames_cons hframes] at h
    refine h.follows_nested tiles rfl (List.cons_ne_nil _ _) start hpos fun mode' σ' hdispatch => ?_
    rw [hframes] at leads
    exact leads.push ((htake _).trans hdispatch)

/-- Every step keeps what is known of the text. -/
theorem Follows.step (h : Follows text s) (hstep : s.step false c = .ok t) :
    Follows (text.push c) t := by
  obtain ⟨u, htaken, rfl⟩ := taken_of_step hstep
  cases h with
  | idle tiles hmode hframes hpos =>
    cases htaken with
    | between _ hdispatched => exact hdispatched.follows_idle tiles hmode hframes hpos
    | prolongs hne | ends hne | follows hne => exact absurd hmode hne
  | @within before current _ tiles start hpos leads unfinished =>
    rw [push_append]
    have hpos' := pos_add hpos c
    cases htaken with
    | between hmode hdispatched =>
      rw [hmode] at leads
      exact hdispatched.follows_nested tiles hmode (unfinished.resolve_left (absurd hmode)) start
        hpos fun mode' σ' htake => leads.push htake
    | prolongs _ hmode' htake =>
      exact .within tiles start hpos' (leads.push (htake _)) (.inl hmode')
    | ends _ htake => exact follows_push tiles start (leads.push (htake _)) hpos'
    | follows _ hsettle htake hdispatched =>
      exact hdispatched.follows_token tiles start hpos leads hsettle htake

theorem Follows.run (h : Follows text s) {cs : List Char} (hrun : s.run false cs = .ok t) :
    Follows (text ++ String.ofList cs) t := by
  induction cs generalizing text s with
  | nil =>
    obtain rfl := Except.ok.inj hrun
    simpa using h
  | cons c cs ih =>
    obtain ⟨u, hstep, hrun⟩ := bind_eq_ok_iff.1 hrun
    have htext : text ++ String.ofList (c :: cs) = text.push c ++ String.ofList cs := by
      rw [← List.singleton_append, String.ofList_append, ← String.append_assoc]
      exact congrArg (· ++ String.ofList cs) (String.push_eq_append c).symm
    rw [htext]
    exact ih (h.step hstep) hrun

/-- A text that is read to the end is made up of blanks and trees. -/
theorem Follows.tiles_of_finish (h : Follows text s) {es : List (Span × Sexp)}
    (hfinish : s.finish false = .ok es) : Tiles text es.reverse := by
  obtain ⟨t, hsettle, hfinish⟩ := bind_eq_ok_iff.1 hfinish
  split at hfinish
  next hcond =>
    obtain rfl := Except.ok.inj hfinish
    have hframes : t.enclosing = [] := by simpa using hcond
    rw [List.reverse_reverse]
    cases h with
    | idle tiles hmode =>
      rw [State.settle, hmode] at hsettle
      obtain rfl := Except.ok.inj hsettle
      exact tiles
    | @within before current _ tiles start hpos leads unfinished =>
      by_cases hmode : s.mode = .between
      · rw [State.settle, hmode] at hsettle
        obtain rfl := Except.ok.inj hsettle
        exact absurd hframes (unfinished.resolve_left (absurd hmode))
      · obtain ⟨e, rfl, hshape⟩ := settle_cases hsettle hmode
        cases hnil : s.enclosing with
        | nil =>
          rw [hnil] at leads
          rw [push_of_frames_nil hnil, start, hpos]
          exact tiles.tree (leads.parse_eq (hshape _))
        | cons items outer =>
          rw [push_of_frames_cons hnil] at hframes
          cases hframes
  next => cases hfinish

end Reader

open Reader

/-- A text that is read as trees is made up of blanks and of the parts of the trees. -/
theorem tiles_of_parseSpanned {text : String} {es : List (Span × Sexp)}
    (h : parseSpanned text = .ok es) : Tiles text es.reverse := by
  obtain ⟨s, hrun, hfinish⟩ := bind_eq_ok_iff.1 h
  have hfollows := follows_initial.run hrun
  rw [String.ofList_toList, String.empty_append] at hfollows
  exact hfollows.tiles_of_finish hfinish

end Sexp

end InvariantSearch
