import InvariantSearch.Sexp.Printer
import InvariantSearch.Sexp.Reader
import Mathlib.Tactic.Common

/-!
# The reader without offsets

The reader tracks offsets for its spans and messages. `Reader.reads` is the reader without them: it
takes the same steps on what is read so far (`Reader.Shape`), and tells the trees that are read in
the end (`Reader.State.reads_eq`). Equations for each kind of token follow: a quoted symbol and a
comment up to their ends, a bare symbol and a numeral up to a character that does not prolong them.
-/

namespace InvariantSearch

namespace Sexp

namespace Reader

/-! ## The reader without offsets -/

/-- What is read so far: the items of the unfinished lists and the finished trees, in reverse. -/
structure Shape where
  frames : List (List Sexp)
  trees : List Sexp

namespace Shape

/-- Nothing read yet. -/
def empty : Shape := ⟨[], []⟩

/-- Adds a tree. -/
def push (σ : Shape) (e : Sexp) : Shape :=
  match σ.frames with
  | [] => { σ with trees := e :: σ.trees }
  | items :: outer => { σ with frames := (e :: items) :: outer }

/-- Adds a symbol, whose text is held in reverse. -/
def pushSymbol (σ : Shape) (text : List Char) : Shape :=
  σ.push (.symbol (String.ofList text.reverse))

/-- Adds a comment, whose text is held in reverse. -/
def pushComment (σ : Shape) (text : List Char) : Shape :=
  σ.push (.comment (String.ofList text.reverse))

/-- Adds a numeral if it has at most 64 bits. -/
def pushNumeral (σ : Shape) (value : Nat) : Option Shape :=
  if value < UInt64.size then some (σ.push (.numeral (UInt64.ofNat value))) else none

/-- Begins a list. -/
def openList (σ : Shape) : Shape := { σ with frames := [] :: σ.frames }

/-- Ends the innermost list. -/
def closeList (σ : Shape) : Option Shape :=
  match σ.frames with
  | [] => none
  | items :: outer => some ({ σ with frames := outer }.push (.list items.reverse))

/-- Whether one tree is all that is asked for, and is there. -/
def isFull (single : Bool) (σ : Shape) : Bool :=
  single && σ.frames.isEmpty && !σ.trees.isEmpty

/-- The trees read, if the text can end here. -/
def finish (single : Bool) (σ : Shape) : Option (List Sexp) :=
  if σ.frames.isEmpty && (!single || !σ.trees.isEmpty) then some σ.trees.reverse else none

/-- Begins the token of a character. -/
def dispatch (single : Bool) (σ : Shape) (c : Char) : Option (Mode × Shape) :=
  if isBlank c then some (.between, σ)
  else if σ.isFull single then none
  else if c = '"' then some (.quoted .double [], σ)
  else if c = '|' then some (.quoted .bar [], σ)
  else if c = ';' then some (.comment [], σ)
  else if c = '(' then some (.between, σ.openList)
  else if c = ')' then σ.closeList.map (.between, ·)
  else if c.isDigit then some (.numeral (c.toNat - '0'.toNat), σ)
  else if isSymbolStart c then some (.symbol [c], σ)
  else none

end Shape

/-- Ends the current token. -/
def Mode.settle (σ : Shape) : Mode → Option Shape
  | .between => some σ
  | .symbol text => some (σ.pushSymbol text)
  | .numeral value => σ.pushNumeral value
  | .quoted _ _ => none
  | .comment text => some (σ.pushComment text)

/-- Takes one character. -/
def Mode.take (single : Bool) (σ : Shape) (c : Char) : Mode → Option (Mode × Shape)
  | .quoted mark text =>
    if c = mark.char then some (.between, σ.pushSymbol text)
    else some (.quoted mark (c :: text), σ)
  | .comment text =>
    if c = '\n' then some (.between, σ.pushComment text) else some (.comment (c :: text), σ)
  | .symbol text =>
    if isSymbolChar c then some (.symbol (c :: text), σ) else (σ.pushSymbol text).dispatch single c
  | .numeral value =>
    if c.isDigit then some (.numeral (10 * value + (c.toNat - '0'.toNat)), σ)
    else (σ.pushNumeral value).bind (·.dispatch single c)
  | .between => σ.dispatch single c

/-- The trees that are read in the end. -/
def reads (single : Bool) : List Char → Mode → Shape → Option (List Sexp)
  | [], mode, σ => (mode.settle σ).bind (·.finish single)
  | c :: cs, mode, σ => (mode.take single σ c).bind fun r => reads single cs r.1 r.2

namespace State

/-- What a state holds apart from offsets and the current token. -/
def shape (s : State) : Shape := ⟨s.enclosing, s.done.map (·.2)⟩

/-- What a state holds apart from offsets. -/
def view (s : State) : Mode × Shape := (s.mode, s.shape)

variable {single : Bool} {s : State}

@[simp] theorem shape_push (e : Sexp) (stop : Nat) : (s.push e stop).shape = s.shape.push e := by
  unfold push shape Shape.push
  cases s.enclosing <;> rfl

@[simp] theorem mode_push (e : Sexp) (stop : Nat) : (s.push e stop).mode = .between := by
  unfold push
  cases s.enclosing <;> rfl

@[simp] theorem shape_begin (mode : Mode) : (s.begin mode).shape = s.shape :=
  rfl

@[simp] theorem mode_begin (mode : Mode) : (s.begin mode).mode = mode :=
  rfl

theorem isFull_eq : s.isFull single = s.shape.isFull single := by
  simp [isFull, Shape.isFull, shape]

theorem view_settle : s.settle.toOption.map shape = s.mode.settle s.shape := by
  unfold settle Mode.settle
  cases s.mode with
  | between => rfl
  | symbol text => simp [Except.toOption, Shape.pushSymbol]
  | numeral value =>
    unfold Shape.pushNumeral
    dsimp only
    split <;> simp [Except.toOption]
  | quoted mark text => rfl
  | comment text => simp [Except.toOption, Shape.pushComment]

theorem view_dispatch (also : List Expected) (c : Char) (hs : s.mode = .between) :
    (s.dispatch single also c).toOption.map view = s.shape.dispatch single c := by
  unfold dispatch Shape.dispatch
  rw [isFull_eq]
  split_ifs
  case _ => simp [Except.toOption, view, hs]
  case _ => rfl
  case _ => simp [Except.toOption, view]
  case _ => simp [Except.toOption, view]
  case _ => simp [Except.toOption, view]
  case _ => simp [Except.toOption, view, shape, begin, Shape.openList]
  case _ =>
    cases hframes : s.enclosing with
    | nil => simp [Except.toOption, Shape.closeList, shape, hframes]
    | cons items outer =>
      simp only [Shape.closeList, shape, hframes, Option.map_some]
      exact congrArg some (Prod.ext (mode_push _ _) (shape_push _ _))
  case _ => simp [Except.toOption, view]
  case _ => simp [Except.toOption, view]
  case _ => rfl

theorem mode_of_settle {t : State} (h : s.settle = .ok t) : t.mode = .between := by
  unfold settle at h
  split at h
  next hmode =>
    obtain rfl := Except.ok.inj h
    exact hmode
  next =>
    obtain rfl := Except.ok.inj h
    exact mode_push _ _
  next =>
    split at h
    next =>
      obtain rfl := Except.ok.inj h
      exact mode_push _ _
    next => cases h
  next => cases h
  next =>
    obtain rfl := Except.ok.inj h
    exact mode_push _ _

theorem view_settle_dispatch (also : List Expected) (c : Char) :
    (s.settle.bind (dispatch single also · c)).toOption.map view =
      (s.mode.settle s.shape).bind (·.dispatch single c) := by
  rw [← view_settle]
  cases hsettle : s.settle with
  | error e => rfl
  | ok t => exact view_dispatch also c (mode_of_settle hsettle)

theorem view_take (c : Char) :
    (s.take single c).toOption.map view = s.mode.take single s.shape c := by
  have hdispatch := @view_settle_dispatch single s s.mode.expected c
  cases hmode : s.mode with
  | between =>
    simp only [take, hmode]
    exact view_dispatch [] c hmode
  | symbol text =>
    rw [hmode] at hdispatch
    simp only [take, hmode, Mode.take]
    split
    next => rfl
    next => exact hdispatch
  | numeral value =>
    rw [hmode] at hdispatch
    simp only [take, hmode, Mode.take]
    split
    next => rfl
    next => exact hdispatch
  | quoted mark text =>
    simp only [take, hmode, Mode.take]
    split
    next => exact congrArg some (Prod.ext (mode_push _ _) (shape_push _ _))
    next => rfl
  | comment text =>
    simp only [take, hmode, Mode.take]
    split
    next => exact congrArg some (Prod.ext (mode_push _ _) (shape_push _ _))
    next => rfl

theorem view_step (c : Char) :
    (s.step single c).toOption.map view = s.mode.take single s.shape c := by
  rw [← view_take, step]
  cases s.take single c <;> rfl

theorem view_finish : (s.finish single).toOption.map (fun es => es.map (·.2)) =
    (s.mode.settle s.shape).bind (·.finish single) := by
  rw [← view_settle, finish]
  cases s.settle with
  | error e => rfl
  | ok t =>
    simp only [Except.bind, Except.toOption, Option.map_some, Option.bind_some, Shape.finish, shape,
      List.isEmpty_map]
    by_cases h : (t.enclosing.isEmpty && (!single || !t.done.isEmpty)) = true
    · rw [if_pos h, if_pos h, Option.map_some, List.map_reverse]
    · rw [if_neg h, if_neg h, Option.map_none]

theorem reads_eq (cs : List Char) (s : State) :
    ((s.run single cs).bind (finish single)).toOption.map (fun es => es.map (·.2)) =
      reads single cs s.mode s.shape := by
  induction cs generalizing s with
  | nil => exact view_finish
  | cons c cs ih =>
    rw [run, reads, ← view_step]
    cases s.step single c with
    | error e => rfl
    | ok t => exact ih t

end State

open State

variable {single : Bool} {σ : Shape} {cs : List Char} {c : Char}

/-! ## Tokens -/

theorem isSymbolChar_of_start (h : isSymbolStart c = true) : isSymbolChar c = true := by
  simp [isSymbolChar, h]

theorem isSymbolChar_of_isDigit (h : c.isDigit = true) : isSymbolChar c = true := by
  simp [isSymbolChar, h]

theorem not_isBlank_of_isSymbolChar (h : isSymbolChar c = true) : isBlank c = false := by
  by_contra hblank
  rw [Bool.not_eq_false, isBlank] at hblank
  simp only [Bool.or_eq_true, decide_eq_true_eq] at hblank
  rcases hblank with ((rfl | rfl) | rfl) | rfl <;> revert h <;> decide

theorem not_isDigit_of_isAlpha (h : c.isAlpha = true) : c.isDigit = false := by
  have hletter : (decide ('A'.val ≤ c.val ∧ c.val ≤ 'Z'.val) ||
      (decide ('a'.val ≤ c.val) && decide (c.val ≤ 'z'.val))) = true := h
  by_contra hdigit
  have hrange := Char.isDigit_iff_toNat.1 (Bool.not_eq_false _ ▸ hdigit)
  have hcodes : ('A'.val.toNat = 65 ∧ 'a'.val.toNat = 97) ∧ '9'.toNat = 57 := by decide
  have htoNat : c.toNat = c.val.toNat := rfl
  simp only [Bool.or_eq_true, Bool.and_eq_true, decide_eq_true_eq, UInt32.le_iff_toNat_le]
    at hletter
  omega

theorem not_isDigit_of_isSymbolStart (h : isSymbolStart c = true) : c.isDigit = false := by
  have hothers : ("_'<>:=$@+-*~^&/?.".toList.all fun d => !d.isDigit) = true := by decide
  rw [isSymbolStart, Bool.or_eq_true] at h
  rcases h with halpha | hother
  · exact not_isDigit_of_isAlpha halpha
  · simpa using List.all_eq_true.1 hothers c (List.contains_iff_mem.1 hother)

/-- No character of a bare symbol is a mark. -/
theorem ne_of_isSymbolChar {d : Char} (h : isSymbolChar c = true) (hd : isSymbolChar d = false) :
    c ≠ d := by
  rintro rfl
  rw [h] at hd
  cases hd

theorem reads_cons (mode : Mode) : reads single (c :: cs) mode σ =
    (mode.take single σ c).bind fun r => reads single cs r.1 r.2 :=
  rfl

theorem reads_blank (h : isBlank c = true) :
    reads single (c :: cs) .between σ = reads single cs .between σ := by
  rw [reads_cons, Mode.take, Shape.dispatch, if_pos h]
  rfl

section Open

variable (hσ : σ.isFull single = false)

include hσ

theorem reads_open : reads single ('(' :: cs) .between σ = reads single cs .between σ.openList := by
  rw [reads_cons, Mode.take, Shape.dispatch, hσ]
  rfl

theorem reads_semicolon :
    reads single (';' :: cs) .between σ = reads single cs (.comment []) σ := by
  rw [reads_cons, Mode.take, Shape.dispatch, hσ]
  rfl

theorem reads_mark (mark : Quote) :
    reads single (mark.char :: cs) .between σ = reads single cs (.quoted mark []) σ := by
  rw [reads_cons, Mode.take, Shape.dispatch, hσ]
  cases mark <;> rfl

/-- A character of a bare symbol begins a numeral or a symbol. -/
theorem dispatch_of_isSymbolChar (h : isSymbolChar c = true) : σ.dispatch single c =
    if c.isDigit then some (.numeral (c.toNat - '0'.toNat), σ)
    else if isSymbolStart c then some (.symbol [c], σ)
    else none := by
  rw [Shape.dispatch, hσ, if_neg (Bool.eq_false_iff.1 (not_isBlank_of_isSymbolChar h)),
    if_neg Bool.false_ne_true, if_neg (ne_of_isSymbolChar h rfl),
    if_neg (ne_of_isSymbolChar h rfl), if_neg (ne_of_isSymbolChar h rfl),
    if_neg (ne_of_isSymbolChar h rfl), if_neg (ne_of_isSymbolChar h rfl)]

theorem reads_digit (h : c.isDigit = true) : reads single (c :: cs) .between σ =
    reads single cs (.numeral (c.toNat - '0'.toNat)) σ := by
  rw [reads_cons, Mode.take, dispatch_of_isSymbolChar hσ (isSymbolChar_of_isDigit h), if_pos h]
  rfl

theorem reads_start (h : isSymbolStart c = true) :
    reads single (c :: cs) .between σ = reads single cs (.symbol [c]) σ := by
  rw [reads_cons, Mode.take, dispatch_of_isSymbolChar hσ (isSymbolChar_of_start h),
    if_neg (Bool.eq_false_iff.1 (not_isDigit_of_isSymbolStart h)), if_pos h]
  rfl

end Open

theorem reads_close (items : List Sexp) (outer : List (List Sexp)) (trees : List Sexp) :
    reads single (')' :: cs) .between ⟨items :: outer, trees⟩ =
      reads single cs .between (Shape.push ⟨outer, trees⟩ (.list items.reverse)) := by
  rw [reads_cons, Mode.take, Shape.dispatch, if_neg (by decide), Shape.isFull]
  simp [Shape.closeList]

/-! ## The rest of a token -/

theorem reads_quoted (mark : Quote) (text w : List Char) (h : mark.char ∉ text) :
    reads single (text ++ mark.char :: cs) (.quoted mark w) σ =
      reads single cs .between (σ.pushSymbol (text.reverse ++ w)) := by
  induction text generalizing w with
  | nil =>
    rw [List.nil_append, reads_cons, Mode.take, if_pos rfl]
    rfl
  | cons c text ih =>
    rw [List.mem_cons, not_or] at h
    rw [List.cons_append, reads_cons, Mode.take, if_neg (Ne.symm h.1), Option.bind_some, ih _ h.2]
    simp

theorem reads_comment (text w : List Char) (h : '\n' ∉ text) :
    reads single (text ++ '\n' :: cs) (.comment w) σ =
      reads single cs .between (σ.pushComment (text.reverse ++ w)) := by
  induction text generalizing w with
  | nil =>
    rw [List.nil_append, reads_cons, Mode.take, if_pos rfl]
    rfl
  | cons c text ih =>
    rw [List.mem_cons, not_or] at h
    rw [List.cons_append, reads_cons, Mode.take, if_neg (Ne.symm h.1), Option.bind_some, ih _ h.2]
    simp

/-- A comment can end the text. -/
theorem reads_last_comment (text w : List Char) (h : '\n' ∉ text) :
    reads single text (.comment w) σ =
      reads single [] .between (σ.pushComment (text.reverse ++ w)) := by
  induction text generalizing w with
  | nil => rfl
  | cons c text ih =>
    rw [List.mem_cons, not_or] at h
    rw [reads_cons, Mode.take, if_neg (Ne.symm h.1), Option.bind_some, ih _ h.2]
    simp

/-- The text does not prolong a bare symbol or numeral. -/
def Ends (cs : List Char) : Prop := ∀ c ∈ cs.head?, isSymbolChar c = false

theorem reads_symbol (text w : List Char) (h : ∀ c ∈ text, isSymbolChar c = true) (hcs : Ends cs) :
    reads single (text ++ cs) (.symbol w) σ =
      reads single cs .between (σ.pushSymbol (text.reverse ++ w)) := by
  induction text generalizing w with
  | nil =>
    cases cs with
    | nil => rfl
    | cons d cs =>
      have hd : isSymbolChar d = false := hcs d rfl
      rw [List.nil_append, reads_cons, Mode.take, if_neg (by simp [hd])]
      rfl
  | cons c text ih =>
    rw [List.cons_append, reads_cons, Mode.take, if_pos (h c List.mem_cons_self), Option.bind_some,
      ih _ fun d hd => h d (List.mem_cons_of_mem c hd)]
    simp

theorem reads_numeral (digits : List Char) (value : Nat) (h : ∀ c ∈ digits, c.isDigit = true)
    (hcs : Ends cs) : reads single (digits ++ cs) (.numeral value) σ =
      (σ.pushNumeral (Nat.ofDigitChars 10 digits value)).bind (reads single cs .between ·) := by
  induction digits generalizing value with
  | nil =>
    cases cs with
    | nil =>
      rw [List.nil_append, reads, Mode.settle, Nat.ofDigitChars_nil]
      rfl
    | cons d cs =>
      have hd : d.isDigit = false := by
        by_contra hdigit
        have := hcs d rfl
        rw [isSymbolChar_of_isDigit (Bool.not_eq_false _ ▸ hdigit)] at this
        cases this
      rw [List.nil_append, reads_cons, Mode.take, if_neg (by simp [hd]), Nat.ofDigitChars_nil,
        Option.bind_assoc]
      rfl
  | cons c digits ih =>
    rw [List.cons_append, reads_cons, Mode.take, if_pos (h c List.mem_cons_self), Option.bind_some,
      ih _ fun d hd => h d (List.mem_cons_of_mem c hd), Nat.ofDigitChars_cons]

end Reader

/-! ## Parsing -/

open Reader

theorem parse_eq_ok_iff {text : String} {e : Sexp} : parse text = .ok e ↔
    ∃ rest, reads true text.toList .between .empty = some (e :: rest) := by
  have hreads := @State.reads_eq true text.toList .initial
  change (read true text).toOption.map _ = reads true text.toList .between .empty at hreads
  rw [← hreads, parse]
  cases read true text with
  | error err => simp [Except.bind, Except.toOption]
  | ok es =>
    cases es with
    | nil => simp [Except.bind, Except.toOption]
    | cons p es => simp [Except.bind, Except.toOption]

theorem exists_parseSpanned {text : String} {es : List Sexp}
    (h : reads false text.toList .between .empty = some es) :
    ∃ spanned, parseSpanned text = .ok spanned ∧ spanned.map (·.2) = es := by
  have hreads := @State.reads_eq false text.toList .initial
  change (parseSpanned text).toOption.map _ = reads false text.toList .between .empty at hreads
  rw [h] at hreads
  cases hparse : parseSpanned text with
  | error err =>
    rw [hparse] at hreads
    cases hreads
  | ok spanned =>
    rw [hparse] at hreads
    exact ⟨spanned, rfl, Option.some.inj hreads⟩

end Sexp

end InvariantSearch
