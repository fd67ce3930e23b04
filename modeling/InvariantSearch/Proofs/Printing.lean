import InvariantSearch.Proofs.Reading

/-!
# Reading what is printed

A tree is a sequence of tokens (`Sexp.tokens`). What is printed for it is read as this tree if its
tokens are readable (`Reader.reads_render_empty`): each symbol is legible, and each comment is one
line. A symbol is legible (`Sexp.isLegible`) if it is bare, or if it is printed between marks that
it does not hold itself.
-/

namespace InvariantSearch

namespace Sexp

/-! ## Tokens -/

/-- A parenthesis, an atom or a comment. -/
inductive Token where
  | opening
  | closing
  | atom (a : Atom)
  | comment (text : String)

mutual

/-- The tokens of a tree, in order. -/
def tokens : Sexp → List Token
  | .atom a => [.atom a]
  | .comment s => [.comment s]
  | .list xs => .opening :: (tokensAll xs ++ [.closing])

/-- The tokens of trees, in order. -/
def tokensAll : List Sexp → List Token
  | [] => []
  | x :: xs => tokens x ++ tokensAll xs

end

theorem tokensAll_append (xs ys : List Sexp) :
    tokensAll (xs ++ ys) = tokensAll xs ++ tokensAll ys := by
  induction xs with
  | nil => rfl
  | cons x xs ih => rw [List.cons_append, tokensAll, ih, tokensAll, List.append_assoc]

/-- The symbol with the text. -/
abbrev Token.symbol (text : String) : Token := .atom (.symbol text)

/-! ## Legible symbols -/

/-- The text is a bare symbol. -/
def isBare : List Char → Bool
  | [] => false
  | c :: cs => isSymbolStart c && cs.all isSymbolChar

/-- The text has a character for which it is printed between bars. -/
def isMarked (text : String) : Bool :=
  text.toList.any fun c => c = ' ' || c = '"' || c = '\''

/-- The text as it is printed is read as a symbol with this text. -/
def isLegible (text : String) : Bool :=
  if isMarked text then !text.toList.contains '|'
  else text.toList.contains '|' || isBare text.toList

theorem isSymbolChar_of_isBare {cs : List Char} (h : isBare cs = true) :
    ∀ c ∈ cs, isSymbolChar c = true := by
  cases cs with
  | nil => cases h
  | cons c cs =>
    rw [isBare, Bool.and_eq_true, List.all_eq_true] at h
    intro d hd
    rcases List.mem_cons.1 hd with rfl | hd
    · exact Reader.isSymbolChar_of_start h.1
    · exact h.2 d hd

theorem isBare_concat {cs : List Char} {c : Char} (h : isBare cs = true)
    (hc : isSymbolChar c = true) : isBare (cs ++ [c]) = true := by
  cases cs with
  | nil => cases h
  | cons d cs =>
    rw [isBare, Bool.and_eq_true] at h
    rw [List.cons_append, isBare, List.all_append, h.1, h.2]
    simp [hc]

theorem render_symbol (s : String) : (Atom.symbol s).render.toList =
    if isMarked s then '|' :: (s.toList ++ ['|'])
    else if '|' ∈ s.toList then '"' :: (s.toList ++ ['"'])
    else s.toList := by
  have hbar : (s.toList.any (· = '|')) = decide ('|' ∈ s.toList) := by
    rw [Bool.eq_iff_iff, List.any_eq_true, decide_eq_true_iff]
    exact ⟨fun ⟨c, hc, h⟩ => of_decide_eq_true h ▸ hc, fun h => ⟨_, h, decide_eq_true rfl⟩⟩
  change (if isMarked s = true then "|" ++ s ++ "|"
    else if (s.toList.any (· = '|')) = true then "\"" ++ s ++ "\"" else s).toList = _
  rw [hbar]
  split
  next => simp
  next => split <;> simp_all

theorem not_mem_of_not_isMarked {s : String} (h : isMarked s = false) :
    ' ' ∉ s.toList ∧ '"' ∉ s.toList ∧ '\'' ∉ s.toList := by
  rw [isMarked, List.any_eq_false] at h
  refine ⟨fun hc => h _ hc ?_, fun hc => h _ hc ?_, fun hc => h _ hc ?_⟩ <;> decide

/-! ## Reading what is printed -/

namespace Reader

variable {single : Bool} {σ : Shape} {cs : List Char}

/-- A legible symbol, or any other token that is read as it is printed. -/
def Readable : Token → Prop
  | .atom (.symbol s) => isLegible s = true
  | .comment s => '\n' ∉ s.toList
  | _ => True

theorem isFull_of_frames (h : σ.frames ≠ []) : σ.isFull single = false := by
  simp [Shape.isFull, h]

theorem pushSymbol_reverse (s : String) : σ.pushSymbol (s.toList.reverse ++ []) =
    σ.push (.atom (.symbol s)) := by
  simp [Shape.pushSymbol, Sexp.symbol]

/-- A bare symbol is read up to a character that does not prolong it. -/
theorem reads_bare {text : List Char} (h : isBare text = true) (hσ : σ.isFull single = false)
    (hcs : Ends cs) : reads single (text ++ cs) .between σ =
      reads single cs .between (σ.pushSymbol text.reverse) := by
  cases text with
  | nil => cases h
  | cons c text =>
    rw [isBare, Bool.and_eq_true, List.all_eq_true] at h
    rw [List.cons_append, reads_start hσ h.1, reads_symbol text [c] h.2 hcs, List.reverse_cons]

theorem reads_toDigits (n : UInt64) (hσ : σ.isFull single = false) (hcs : Ends cs) :
    reads single ((toString n.toNat).toList ++ cs) .between σ =
      reads single cs .between (σ.push (.atom (.numeral n))) := by
  have hvalue : Nat.ofDigitChars 10 (Nat.toDigits 10 n.toNat) 0 = n.toNat :=
    Nat.ofDigitChars_toDigits (by decide) (Nat.le_refl 10)
  have hdigits : ∀ c ∈ Nat.toDigits 10 n.toNat, c.isDigit = true := fun c hc =>
    Nat.isDigit_of_mem_toDigits (by decide) (Nat.le_refl 10) hc
  rw [Nat.toString_eq_ofList_toDigits, String.toList_ofList]
  cases hds : Nat.toDigits 10 n.toNat with
  | nil => exact absurd hds Nat.toDigits_ne_nil
  | cons d ds =>
    rw [hds] at hvalue hdigits
    rw [Nat.ofDigitChars_cons, Nat.mul_zero, Nat.zero_add] at hvalue
    rw [List.cons_append, reads_digit hσ (hdigits d List.mem_cons_self), reads_numeral ds _
      (fun c hc => hdigits c (List.mem_cons_of_mem d hc)) hcs, hvalue, Shape.pushNumeral,
      if_pos n.toNat_lt, UInt64.ofNat_toNat]
    rfl

theorem reads_atom {a : Atom} (ha : Readable (.atom a)) (hσ : σ.isFull single = false)
    (hcs : Ends cs) : reads single (a.render.toList ++ cs) .between σ =
      reads single cs .between (σ.push (.atom a)) := by
  cases a with
  | numeral n => exact reads_toDigits n hσ hcs
  | symbol s =>
    have hlegible : isLegible s = true := ha
    rw [isLegible] at hlegible
    rw [render_symbol, ← pushSymbol_reverse]
    split_ifs with hmarked hbar
    · rw [if_pos hmarked] at hlegible
      have hbar : '|' ∉ s.toList := by simpa using hlegible
      rw [List.cons_append, List.append_assoc]
      exact (reads_mark hσ .bar).trans (reads_quoted .bar s.toList [] hbar)
    · have hquote : Quote.double.char ∉ s.toList :=
        (not_mem_of_not_isMarked (Bool.eq_false_iff.2 hmarked)).2.1
      rw [List.cons_append, List.append_assoc]
      exact (reads_mark hσ .double).trans (reads_quoted .double s.toList [] hquote)
    · rw [if_neg hmarked, Bool.or_eq_true] at hlegible
      have hbare : isBare s.toList = true := hlegible.resolve_left (by simpa using hbar)
      rw [reads_bare hbare hσ hcs, List.append_nil]

theorem push_frames (items : List Sexp) (outer : List (List Sexp)) (trees : List Sexp) (e : Sexp) :
    Shape.push ⟨items :: outer, trees⟩ e = ⟨(e :: items) :: outer, trees⟩ :=
  rfl

theorem toList_items_comment (s : String) (xs : List Sexp) :
    (renderItems (.comment s :: xs)).toList ++ cs =
      '\n' :: ';' :: (s.toList ++ '\n' :: ((renderItems xs).toList ++ cs)) := by
  simp [renderItems_comment]

theorem toList_items_cons {x : Sexp} (xs : List Sexp) (hx : x.isComment = false) :
    (renderItems (x :: xs)).toList ++ cs =
      x.render.toList ++ ((separator xs).toList ++ ((renderItems xs).toList ++ cs)) := by
  simp [renderItems_cons x xs hx]

theorem toList_list (xs : List Sexp) :
    (render (.list xs)).toList ++ cs = '(' :: ((renderItems xs).toList ++ ')' :: cs) := by
  simp [render_list]

/-- What follows an item does not prolong it. -/
theorem ends_items (xs : List Sexp) :
    Ends ((separator xs).toList ++ ((renderItems xs).toList ++ ')' :: cs)) := by
  cases xs with
  | nil =>
    rw [renderItems_nil]
    exact fun c hc => Option.some.inj hc ▸ rfl
  | cons x xs =>
    cases hcomment : x.isComment with
    | false =>
      rw [separator, hcomment]
      exact fun c hc => Option.some.inj hc ▸ rfl
    | true =>
      cases x with
      | comment s =>
        rw [toList_items_comment]
        exact fun c hc => Option.some.inj hc ▸ rfl
      | _ => cases hcomment

theorem reads_separator (xs : List Sexp) :
    reads single ((separator xs).toList ++ cs) .between σ = reads single cs .between σ := by
  cases xs with
  | nil => rfl
  | cons x xs =>
    rw [separator]
    split
    next => rfl
    next => exact reads_blank rfl

/-- An item of a list is read before the items after it. -/
theorem reads_items_cons {x : Sexp} (xs : List Sexp) (hx : ∀ tok ∈ tokens x, Readable tok)
    (hframes : σ.frames ≠ []) (hrender : x.isComment = false → ∀ cs, Ends cs →
      reads single (x.render.toList ++ cs) .between σ = reads single cs .between (σ.push x)) :
    reads single ((renderItems (x :: xs)).toList ++ ')' :: cs) .between σ =
      reads single ((renderItems xs).toList ++ ')' :: cs) .between (σ.push x) := by
  cases hcomment : x.isComment with
  | false =>
    rw [toList_items_cons xs hcomment, hrender hcomment _ (ends_items xs), reads_separator]
  | true =>
    cases x with
    | comment s =>
      rw [toList_items_comment, reads_blank rfl, reads_semicolon (isFull_of_frames hframes),
        reads_comment s.toList [] (hx (.comment s) (List.mem_singleton_self _))]
      simp [Shape.pushComment]
    | _ => cases hcomment

mutual

/-- What is printed for a tree is read as the tree. -/
theorem reads_render : (e : Sexp) → (∀ tok ∈ e.tokens, Readable tok) → e.isComment = false →
    ∀ {σ cs}, σ.isFull single = false → Ends cs →
      reads single (e.render.toList ++ cs) .between σ = reads single cs .between (σ.push e)
  | .atom a, h, _, _, _, hσ, hcs => by
    rw [render_atom]
    exact reads_atom (h _ (List.mem_singleton_self _)) hσ hcs
  | .comment _, _, hcomment, _, _, _, _ => by cases hcomment
  | .list xs, h, _, σ, cs, hσ, _ => by
    have hxs : ∀ tok ∈ tokensAll xs, Readable tok := fun tok htok =>
      h tok (List.mem_cons_of_mem _ (List.mem_append_left _ htok))
    rw [toList_list, reads_open hσ, Shape.openList, reads_renderItems xs hxs, reads_close,
      List.append_nil, List.reverse_reverse]

/-- What is printed for the items of a list is read as these items. -/
theorem reads_renderItems : (xs : List Sexp) → (∀ tok ∈ tokensAll xs, Readable tok) →
    ∀ {items outer trees cs},
      reads single ((renderItems xs).toList ++ ')' :: cs) .between ⟨items :: outer, trees⟩ =
        reads single (')' :: cs) .between ⟨(xs.reverse ++ items) :: outer, trees⟩
  | [], _, _, _, _, _ => by
    rw [renderItems_nil]
    rfl
  | x :: xs, h, items, outer, trees, cs => by
    have hx : ∀ tok ∈ tokens x, Readable tok := fun tok htok => h tok (List.mem_append_left _ htok)
    have hxs : ∀ tok ∈ tokensAll xs, Readable tok := fun tok htok =>
      h tok (List.mem_append_right _ htok)
    have hframes : Shape.frames ⟨items :: outer, trees⟩ ≠ [] := List.cons_ne_nil _ _
    rw [reads_items_cons xs hx hframes fun hcomment _ hcs =>
        reads_render x hx hcomment (isFull_of_frames hframes) hcs,
      push_frames, reads_renderItems xs hxs, List.reverse_cons, List.append_assoc]
    rfl

end

/-- What is printed for a tree is read as this tree alone. -/
theorem reads_render_empty {e : Sexp} (h : ∀ tok ∈ e.tokens, Readable tok) :
    reads single e.render.toList .between .empty = some [e] := by
  have hempty : Shape.empty.isFull single = false := by simp [Shape.isFull, Shape.empty]
  have hend : reads single [] .between (Shape.empty.push e) = some [e] := by
    cases single <;> rfl
  cases hcomment : e.isComment with
  | false =>
    have hread : reads single (e.render.toList ++ []) .between .empty = _ :=
      reads_render e h hcomment hempty fun c hc => by cases hc
    rw [← hend, ← hread, List.append_nil]
  | true =>
    cases e with
    | comment s =>
      have hs : '\n' ∉ s.toList := h (.comment s) (List.mem_singleton_self _)
      rw [← hend, render_comment]
      simpa [Shape.pushComment] using
        (reads_semicolon hempty).trans (reads_last_comment s.toList [] hs)
    | _ => cases hcomment

end Reader

end Sexp

end InvariantSearch
