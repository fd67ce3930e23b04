import InvariantSearch.Proofs.Printing

/-!
# Printing and reading back

A tree that was read is read back from what is printed for it if and only if all its symbols are
legible (`Sexp.parse_render_iff`).

That legible symbols suffice is `Reader.reads_render_empty`. Conversely, the reader only ever adds
tokens to those it has read (`Reader.tokens_reads`), so it has to read the tokens of the tree one
after the other. Up to the first illegible symbol it does. An illegible symbol is printed bare, and
then is read as something else unless it is blank; or it holds bars and is printed between bars, and
then its text falls apart. What is read next is the symbol only if the tokens can be made up for in
what follows, and so the symbol is awaited there. `Reader.Awaits` holds the symbols awaited, and is
followed to the end of the list, where it leads to a contradiction (`Reader.readable_of_items`).
-/

namespace InvariantSearch

namespace Sexp

namespace Reader

variable {single : Bool} {σ : Shape} {cs : List Char}

/-! ## The order of tokens -/

/-- The tokens read so far. -/
def Shape.tokens (σ : Shape) : List Token :=
  tokensAll σ.trees.reverse ++
    σ.frames.reverse.flatMap fun items => .opening :: tokensAll items.reverse

@[simp] theorem Shape.tokens_push (σ : Shape) (e : Sexp) :
    (σ.push e).tokens = σ.tokens ++ e.tokens := by
  obtain ⟨frames, trees⟩ := σ
  cases frames with
  | nil => simp [Shape.push, Shape.tokens, tokensAll_append, tokensAll]
  | cons items outer => simp [Shape.push, Shape.tokens, tokensAll_append, tokensAll]

@[simp] theorem Shape.tokens_openList (σ : Shape) : σ.openList.tokens = σ.tokens ++ [.opening] := by
  simp [Shape.openList, Shape.tokens, tokensAll]

theorem Shape.tokens_closeList {σ' : Shape} (h : σ.closeList = some σ') :
    σ'.tokens = σ.tokens ++ [.closing] := by
  obtain ⟨frames, trees⟩ := σ
  cases frames with
  | nil => cases h
  | cons items outer =>
    obtain rfl := Option.some.inj h
    rw [Shape.tokens_push]
    simp [Shape.tokens, Sexp.tokens]

theorem Shape.tokens_finish {es : List Sexp} (h : σ.finish single = some es) :
    tokensAll es = σ.tokens := by
  unfold Shape.finish at h
  split at h
  next hcomplete =>
    rw [Bool.and_eq_true, List.isEmpty_iff] at hcomplete
    obtain rfl := Option.some.inj h
    simp [Shape.tokens, hcomplete.1]
  next => cases h

variable {es : List Sexp} {mode : Mode} {tok : Token} {c : Char}

theorem tokens_settle {σ' : Shape} (h : mode.settle σ = some σ') : σ.tokens <+: σ'.tokens := by
  cases mode with
  | between => exact Option.some.inj h ▸ List.prefix_refl _
  | symbol text =>
    rw [← Option.some.inj h, Shape.pushSymbol, Shape.tokens_push]
    exact List.prefix_append _ _
  | numeral value =>
    rw [Mode.settle, Shape.pushNumeral] at h
    split at h
    next =>
      rw [← Option.some.inj h, Shape.tokens_push]
      exact List.prefix_append _ _
    next => cases h
  | quoted mark text => cases h
  | comment text =>
    rw [← Option.some.inj h, Shape.pushComment, Shape.tokens_push]
    exact List.prefix_append _ _

theorem tokens_dispatch {r : Mode × Shape} (h : σ.dispatch single c = some r) :
    σ.tokens <+: r.2.tokens := by
  unfold Shape.dispatch at h
  split_ifs at h
  all_goals try exact Option.some.inj h ▸ List.prefix_refl _
  case _ =>
    rw [← Option.some.inj h, Shape.tokens_openList]
    exact List.prefix_append _ _
  case _ =>
    obtain ⟨σ', hclose, rfl⟩ := Option.map_eq_some_iff.1 h
    rw [Shape.tokens_closeList hclose]
    exact List.prefix_append _ _

theorem tokens_take {r : Mode × Shape} (h : mode.take single σ c = some r) :
    σ.tokens <+: r.2.tokens := by
  have hsettle : ∀ σ', mode.settle σ = some σ' → σ'.dispatch single c = some r →
      σ.tokens <+: r.2.tokens := fun σ' hsettle hdispatch =>
    (tokens_settle hsettle).trans (tokens_dispatch hdispatch)
  cases mode with
  | between => exact tokens_dispatch h
  | symbol text =>
    rw [Mode.take] at h
    split at h
    next => exact Option.some.inj h ▸ List.prefix_refl _
    next => exact hsettle _ rfl h
  | numeral value =>
    rw [Mode.take] at h
    split at h
    next => exact Option.some.inj h ▸ List.prefix_refl _
    next =>
      obtain ⟨σ', hpush, hdispatch⟩ := Option.bind_eq_some_iff.1 h
      exact hsettle σ' hpush hdispatch
  | quoted mark text =>
    rw [Mode.take] at h
    split at h
    next =>
      rw [← Option.some.inj h, Shape.pushSymbol, Shape.tokens_push]
      exact List.prefix_append _ _
    next => exact Option.some.inj h ▸ List.prefix_refl _
  | comment text =>
    rw [Mode.take] at h
    split at h
    next =>
      rw [← Option.some.inj h, Shape.pushComment, Shape.tokens_push]
      exact List.prefix_append _ _
    next => exact Option.some.inj h ▸ List.prefix_refl _

/-- The tokens read so far begin the tokens of the trees read in the end. -/
theorem tokens_reads (h : reads single cs mode σ = some es) : σ.tokens <+: tokensAll es := by
  induction cs generalizing mode σ with
  | nil =>
    obtain ⟨σ', hsettle, hfinish⟩ := Option.bind_eq_some_iff.1 h
    rw [Shape.tokens_finish hfinish]
    exact tokens_settle hsettle
  | cons c cs ih =>
    obtain ⟨r, htake, h⟩ := Option.bind_eq_some_iff.1 h
    exact (tokens_take htake).trans (ih h)

/-- The token that is read next. -/
def Next (σ : Shape) (es : List Sexp) (tok : Token) : Prop := σ.tokens ++ [tok] <+: tokensAll es

theorem Next.unique {tok' : Token} (h : Next σ es tok) (h' : Next σ es tok') : tok = tok' := by
  obtain ⟨rest, hrest⟩ := h
  obtain ⟨rest', hrest'⟩ := h'
  rw [← hrest', List.append_assoc, List.append_assoc] at hrest
  exact (List.cons.inj (List.append_cancel_left hrest)).1

theorem next_of_push {e : Sexp} (he : e.tokens = [tok])
    (h : reads single cs mode (σ.push e) = some es) : Next σ es tok := by
  have hbegins := tokens_reads h
  rwa [Shape.tokens_push, he] at hbegins

/-- A token that ends the text. -/
theorem next_of_end {e : Sexp} (he : e.tokens = [tok])
    (h : (σ.push e).finish single = some es) : Next σ es tok := by
  have heq : tokensAll es = σ.tokens ++ [tok] := by
    rw [Shape.tokens_finish h, Shape.tokens_push, he]
  exact ⟨[], by rw [heq, List.append_nil]⟩

/-- A token that ends before a character. -/
theorem next_of_dispatch {e : Sexp} (he : e.tokens = [tok])
    (h : ((σ.push e).dispatch single c).bind (fun r => reads single cs r.1 r.2) = some es) :
    Next σ es tok := by
  obtain ⟨r, hdispatch, h⟩ := Option.bind_eq_some_iff.1 h
  have hbegins := (tokens_dispatch hdispatch).trans (tokens_reads h)
  rwa [Shape.tokens_push, he] at hbegins

theorem next_of_comment {text : List Char} (h : reads single cs (.comment text) σ = some es) :
    ∃ s, Next σ es (.comment s) := by
  induction cs generalizing text with
  | nil => exact ⟨_, next_of_end rfl h⟩
  | cons c cs ih =>
    rw [reads_cons, Mode.take] at h
    split at h
    next => exact ⟨_, next_of_push rfl h⟩
    next => exact ih h

theorem next_of_numeral {value : Nat} (h : reads single cs (.numeral value) σ = some es) :
    ∃ n, Next σ es (.atom (.numeral n)) := by
  induction cs generalizing value with
  | nil =>
    rw [reads, Mode.settle, Shape.pushNumeral] at h
    split at h
    next => exact ⟨_, next_of_end rfl h⟩
    next => cases h
  | cons c cs ih =>
    rw [reads_cons, Mode.take] at h
    split at h
    next => exact ih h
    next =>
      rw [Shape.pushNumeral] at h
      split at h
      next => exact ⟨_, next_of_dispatch rfl h⟩
      next => cases h

theorem next_of_symbol {text : List Char} (htext : isBare text.reverse = true)
    (h : reads single cs (.symbol text) σ = some es) :
    ∃ s, isBare s.toList = true ∧ Next σ es (.symbol s) := by
  induction cs generalizing text with
  | nil =>
    exact ⟨_, by rwa [String.toList_ofList], next_of_end rfl h⟩
  | cons c cs ih =>
    rw [reads_cons, Mode.take] at h
    split at h
    next hc => exact ih (by rw [List.reverse_cons]; exact isBare_concat htext hc) h
    next => exact ⟨_, by rwa [String.toList_ofList], next_of_dispatch rfl h⟩

/-- A quoted symbol ends at the next mark. -/
theorem exists_of_quoted {mark : Quote} {text : List Char}
    (h : reads single cs (.quoted mark text) σ = some es) : ∃ u v, cs = u ++ mark.char :: v ∧
      mark.char ∉ u ∧ reads single v .between (σ.pushSymbol (u.reverse ++ text)) = some es := by
  induction cs generalizing text with
  | nil => cases h
  | cons c cs ih =>
    rw [reads_cons, Mode.take] at h
    split at h
    next hc => exact ⟨[], cs, by rw [hc]; rfl, List.not_mem_nil, h⟩
    next hc =>
      obtain ⟨u, v, rfl, hu, hv⟩ := ih h
      refine ⟨c :: u, v, rfl, ?_, by simpa using hv⟩
      rw [List.mem_cons, not_or]
      exact ⟨Ne.symm hc, hu⟩

/-- What is read next if no mark comes first: no symbol, or a bare one. -/
theorem next_of_dispatch_plain (hblank : isBlank c = false) (hdouble : c ≠ '"') (hbar : c ≠ '|')
    (h : reads single (c :: cs) .between σ = some es) :
    ∃ tok, Next σ es tok ∧ ∀ s, tok = .symbol s → isBare s.toList = true := by
  rw [reads_cons, Mode.take, Shape.dispatch, if_neg (Bool.eq_false_iff.1 hblank)] at h
  split at h
  next => cases h
  next =>
    split_ifs at h
    · obtain ⟨s, hnext⟩ := next_of_comment h
      exact ⟨_, hnext, fun _ heq => by cases heq⟩
    · have hbegins := tokens_reads h
      rw [Shape.tokens_openList] at hbegins
      exact ⟨_, hbegins, fun _ heq => by cases heq⟩
    · obtain ⟨r, hmap, h⟩ := Option.bind_eq_some_iff.1 h
      obtain ⟨σ', hclose, rfl⟩ := Option.map_eq_some_iff.1 hmap
      have hbegins := tokens_reads h
      rw [Shape.tokens_closeList hclose] at hbegins
      exact ⟨_, hbegins, fun _ heq => by cases heq⟩
    · obtain ⟨n, hnext⟩ := next_of_numeral h
      exact ⟨_, hnext, fun _ heq => by cases heq⟩
    next hstart =>
      have hbare : isBare [c].reverse = true := by simp [isBare, hstart]
      obtain ⟨s, hs, hnext⟩ := next_of_symbol hbare h
      exact ⟨_, hnext, fun s' heq => by cases heq; exact hs⟩
    · cases h

/-- A text without marks is blank, or what is read next is no symbol or a bare one. -/
theorem blank_or_next (text : List Char) (hdouble : '"' ∉ text) (hbar : '|' ∉ text)
    (h : reads single (text ++ cs) .between σ = some es) :
    ((∀ c ∈ text, isBlank c = true) ∧ reads single cs .between σ = some es) ∨
      ∃ tok, Next σ es tok ∧ ∀ s, tok = .symbol s → isBare s.toList = true := by
  induction text with
  | nil => exact .inl ⟨fun c hc => absurd hc List.not_mem_nil, h⟩
  | cons c text ih =>
    rw [List.mem_cons, not_or] at hdouble hbar
    cases hblank : isBlank c with
    | true =>
      rw [List.cons_append, reads_blank hblank] at h
      refine (ih hdouble.2 hbar.2 h).imp_left fun ⟨htext, hrest⟩ => ⟨fun d hd => ?_, hrest⟩
      rcases List.mem_cons.1 hd with rfl | hd
      · exact hblank
      · exact htext d hd
    | false => exact .inr (next_of_dispatch_plain hblank (Ne.symm hdouble.1) (Ne.symm hbar.1) h)

/-! ## Reading what is printed for an illegible symbol -/

theorem not_isBare_of_not_isLegible {s : String} (h : isLegible s = false) :
    isBare s.toList = false := by
  rw [isLegible] at h
  split at h
  next =>
    have hbar : '|' ∈ s.toList := by simpa using h
    by_contra hbare
    have := isSymbolChar_of_isBare (Bool.not_eq_false _ ▸ hbare) '|' hbar
    revert this
    decide
  next => exact (Bool.or_eq_false_iff.1 h).2

/-- The symbol is printed so that it is not read at once: what is printed is blank, or is read as
several tokens. -/
structure Awaited (s : String) : Prop where
  illegible : isLegible s = false
  blank_or_bar : (∀ c ∈ s.toList, isBlank c = true) ∨ '|' ∈ s.toList

theorem frames_push {e : Sexp} (h : σ.frames ≠ []) : (σ.push e).frames ≠ [] := by
  obtain ⟨frames, trees⟩ := σ
  cases frames with
  | nil => exact absurd rfl h
  | cons items outer => exact List.cons_ne_nil _ _

/-- A bar opens a quoted symbol. -/
theorem reads_bar (h : reads single ('|' :: cs) .between σ = some es) :
    reads single cs (.quoted .bar []) σ = some es := by
  cases hfull : σ.isFull single with
  | false => rwa [← reads_mark hfull .bar]
  | true =>
    rw [reads_cons, Mode.take, Shape.dispatch, hfull] at h
    cases h

/-- Inside a list, the tokens to come begin with the awaited symbols. -/
structure Awaits (σ : Shape) (es : List Sexp) (awaited : List String) (tail : List Token) :
    Prop where
  all : ∀ s ∈ awaited, Awaited s
  frames : σ.frames ≠ []
  begins : σ.tokens ++ (awaited.map Token.symbol ++ tail) <+: tokensAll es

/-- No awaited symbol reaches from the end of an item into what follows. -/
def Crosses (rest : List Char) : Prop :=
  ∀ u v, rest = u ++ '|' :: v → '|' ∉ u → ¬Awaited (String.ofList u)

namespace Awaits

variable {awaited : List String} {tail : List Token} {rest : List Char} {s : String}

theorem next (h : Awaits σ es (s :: awaited) tail) : Next σ es (.symbol s) := by
  refine List.IsPrefix.trans ?_ h.begins
  exact ⟨awaited.map Token.symbol ++ tail, by simp⟩

/-- An awaited symbol is not what is read next if no mark comes first. -/
theorem not_next_of_bare (h : Awaits σ es awaited tail) (hne : awaited ≠ [])
    (hnext : Next σ es tok) (hbare : ∀ s, tok = .symbol s → isBare s.toList = true) : False := by
  cases awaited with
  | nil => exact hne rfl
  | cons s awaited =>
    have hs := hbare s (hnext.unique h.next)
    rw [not_isBare_of_not_isLegible (h.all s List.mem_cons_self).illegible] at hs
    cases hs

/-- A quoted symbol that is read is the first awaited one, and the others are still awaited. -/
theorem quoted (h : Awaits σ es awaited tail) (hne : awaited ≠ []) {text : List Char}
    (hbar : '|' ∉ text) (hread : reads single (text ++ '|' :: cs) (.quoted .bar []) σ = some es) :
    ∃ awaited', awaited = String.ofList text :: awaited' ∧
      Awaits (σ.push (.symbol (String.ofList text))) es awaited' tail ∧
      reads single cs .between (σ.push (.symbol (String.ofList text))) = some es := by
  have hquoted : reads single (text ++ '|' :: cs) (.quoted .bar []) σ =
      reads single cs .between (σ.pushSymbol (text.reverse ++ [])) :=
    reads_quoted .bar text [] hbar
  rw [hquoted, List.append_nil, Shape.pushSymbol, List.reverse_reverse] at hread
  cases awaited with
  | nil => exact absurd rfl hne
  | cons s awaited =>
    have heq : String.ofList text = s := by
      have hnext : Next σ es (.symbol (String.ofList text)) := next_of_push rfl hread
      injection hnext.unique h.next with hatom
      injection hatom
    subst heq
    have hall : ∀ s ∈ awaited, Awaited s := fun s hs => h.all s (List.mem_cons_of_mem _ hs)
    refine ⟨awaited, rfl, ⟨hall, frames_push h.frames, ?_⟩, hread⟩
    simpa [Sexp.tokens, Sexp.symbol] using h.begins

/-- What is printed between bars for a text that has bars itself is read as symbols that were
awaited before the text, which stays awaited. -/
theorem exists_rest (h : Awaits σ es awaited tail) (hbar : ∃ s ∈ awaited, '|' ∈ s.toList)
    (hrest : Crosses rest) {text : List Char} (hdouble : '"' ∉ text)
    (hread : reads single (text ++ '|' :: rest) (.quoted .bar []) σ = some es) :
    ∃ σ' awaited', Awaits σ' es awaited' tail ∧ awaited' ≠ [] ∧
      reads single rest .between σ' = some es := by
  induction hlen : text.length using Nat.strongRecOn generalizing text σ awaited with
  | _ n ih =>
    subst hlen
    -- The text up to its first bar is the first awaited symbol.
    have hpush : ∀ u cs, '|' ∉ u → reads single (u ++ '|' :: cs) (.quoted .bar []) σ = some es →
        ∃ σ' awaited', Awaits σ' es awaited' tail ∧ awaited' ≠ [] ∧
          (∃ s ∈ awaited', '|' ∈ s.toList) ∧ reads single cs .between σ' = some es := by
      intro u cs hu hread
      obtain ⟨s, hs, hsbar⟩ := hbar
      obtain ⟨awaited', rfl, h', hread'⟩ := h.quoted (List.ne_nil_of_mem hs) hu hread
      rcases List.mem_cons.1 hs with rfl | hs
      · exact absurd (by simpa using hsbar) hu
      · exact ⟨_, awaited', h', List.ne_nil_of_mem hs, ⟨s, hs, hsbar⟩, hread'⟩
    by_cases hmem : '|' ∈ text
    · obtain ⟨u, v, rfl, hu⟩ := List.eq_append_cons_of_mem hmem
      rw [List.append_assoc, List.cons_append] at hread
      obtain ⟨σ', awaited', h', hne, hbar', hread'⟩ := hpush u _ hu hread
      have hv : '"' ∉ v := fun hmem => hdouble (by simp [hmem])
      by_cases hmem' : '|' ∈ v
      · obtain ⟨w, x, rfl, hw⟩ := List.eq_append_cons_of_mem hmem'
        rw [List.append_assoc, List.cons_append] at hread'
        have hw' : '"' ∉ w := fun hmem => hv (List.mem_append_left _ hmem)
        rcases blank_or_next w hw' hw hread' with ⟨-, hread'⟩ | ⟨tok, hnext, hbare⟩
        · have hx : '"' ∉ x := fun hmem => hv (by simp [hmem])
          refine ih x.length ?_ h' hbar' hx (reads_bar hread') rfl
          simp
          omega
        · exact (h'.not_next_of_bare hne hnext hbare).elim
      · rcases blank_or_next v hv hmem' hread' with ⟨-, hread'⟩ | ⟨tok, hnext, hbare⟩
        · -- The last bar opens a symbol that reaches beyond the item.
          have hquoted := reads_bar hread'
          obtain ⟨w, x, hwx, hw, -⟩ := exists_of_quoted hquoted
          rw [hwx] at hquoted
          obtain ⟨_, rfl, -⟩ := h'.quoted hne hw hquoted
          exact (hrest w x hwx hw (h'.all _ List.mem_cons_self)).elim
        · exact (h'.not_next_of_bare hne hnext hbare).elim
    · obtain ⟨σ', awaited', h', hne, -, hread'⟩ := hpush text _ hmem hread
      exact ⟨σ', awaited', h', hne, hread'⟩

end Awaits

/-- A symbol holds no bars if it holds a double quote, and a comment is one line. -/
def Clean : Token → Prop
  | .atom (.symbol s) => '"' ∈ s.toList → '|' ∉ s.toList
  | .comment s => '\n' ∉ s.toList
  | _ => True

theorem crosses_items (xs : List Sexp) :
    Crosses ((separator xs).toList ++ ((renderItems xs).toList ++ ')' :: cs)) := by
  intro u v heq hu hawaited
  have hblank : ∀ c ∈ u, isBlank c = true := by
    have h := hawaited.blank_or_bar
    rw [String.toList_ofList] at h
    exact h.resolve_right hu
  have hmarked : ' ' ∉ u := by
    have h := hawaited.illegible
    rw [isLegible] at h
    split at h
    next => simp [hu] at h
    next hmarked =>
      have := (not_mem_of_not_isMarked (Bool.eq_false_iff.2 hmarked)).1
      rwa [String.toList_ofList] at this
  -- What follows begins with a parenthesis, a space, or a line feed and a semicolon.
  cases xs with
  | nil =>
    rw [renderItems_nil] at heq
    cases u with
    | nil => cases heq
    | cons c u =>
      obtain ⟨rfl, -⟩ := List.cons.inj heq
      exact absurd (hblank ')' List.mem_cons_self) (by decide)
  | cons x xs =>
    cases hcomment : x.isComment with
    | false =>
      rw [separator, hcomment] at heq
      cases u with
      | nil => cases heq
      | cons c u =>
        obtain ⟨rfl, -⟩ := List.cons.inj heq
        exact hmarked List.mem_cons_self
    | true =>
      cases x with
      | comment s =>
        rw [toList_items_comment] at heq
        rcases u with _ | ⟨c, _ | ⟨d, u⟩⟩
        · cases heq
        · cases heq
        · obtain ⟨rfl, -⟩ := List.cons.inj (List.cons.inj heq).2
          exact absurd (hblank ';' (List.mem_cons_of_mem _ List.mem_cons_self)) (by decide)
      | _ => cases hcomment

namespace Awaits

variable {awaited : List String} {tail : List Token} {x : Sexp} {xs ys : List Sexp}

/-- A readable item is read, so that nothing else can be awaited before it. -/
theorem of_readable (h : Awaits σ es awaited (tokensAll (x :: xs)))
    (hx : ∀ tok ∈ tokens x, Readable tok)
    (hread : reads single ((renderItems (x :: xs)).toList ++ ')' :: cs) .between σ = some es) :
    awaited = [] ∧ Awaits (σ.push x) es [] (tokensAll xs) ∧
      reads single ((renderItems xs).toList ++ ')' :: cs) .between (σ.push x) = some es := by
  rw [reads_items_cons xs hx h.frames fun hcomment _ hcs =>
    reads_render x hx hcomment (isFull_of_frames h.frames) hcs] at hread
  have hbegins := tokens_reads hread
  rw [Shape.tokens_push] at hbegins
  cases awaited with
  | nil =>
    refine ⟨rfl, ⟨fun s hs => absurd hs List.not_mem_nil, frames_push h.frames, ?_⟩, hread⟩
    simpa [tokensAll] using h.begins
  | cons s awaited =>
    obtain ⟨tok, rest, htokens⟩ : ∃ tok rest, tokens x = tok :: rest := by
      cases x <;> exact ⟨_, _, rfl⟩
    have hnext : Next σ es tok := by
      refine List.IsPrefix.trans ?_ hbegins
      exact ⟨rest, by simp [htokens]⟩
    have hlegible : Readable tok := hx tok (by simp [htokens])
    rw [hnext.unique h.next] at hlegible
    have hillegible := (h.all s List.mem_cons_self).illegible
    rw [show isLegible s = true from hlegible] at hillegible
    cases hillegible

/-- An illegible symbol is awaited after it is printed. -/
theorem of_illegible {s : String} (h : Awaits σ es awaited (tokensAll (.symbol s :: xs)))
    (hs : isLegible s = false) (hclean : Clean (.symbol s))
    (hread : reads single ((renderItems (.symbol s :: xs)).toList ++ ')' :: cs) .between σ =
        some es) :
    ∃ σ' awaited', Awaits σ' es awaited' (tokensAll xs) ∧ awaited' ≠ [] ∧
      reads single ((renderItems xs).toList ++ ')' :: cs) .between σ' = some es := by
  rw [toList_items_cons xs rfl, Sexp.symbol, render_atom, render_symbol] at hread
  have hne : awaited ++ [s] ≠ [] := List.append_ne_nil_of_right_ne_nil _ (List.cons_ne_nil _ _)
  have hawaits : Awaited s → Awaits σ es (awaited ++ [s]) (tokensAll xs) := fun hawaited =>
    ⟨fun s' hs' => (List.mem_append.1 hs').elim (h.all s') fun hs' =>
      List.mem_singleton.1 hs' ▸ hawaited, h.frames, by
        simpa [tokensAll, tokens, Sexp.symbol] using h.begins⟩
  have hs' := hs
  rw [isLegible] at hs
  split_ifs at hread hs with hmarked hbar
  · have hbar : '|' ∈ s.toList := by simpa using hs
    rw [List.cons_append, List.append_assoc] at hread
    obtain ⟨σ', awaited', h', hne', hread'⟩ := (hawaits ⟨hs', .inr hbar⟩).exists_rest
      ⟨s, List.mem_append_right _ (List.mem_singleton_self s), hbar⟩ (crosses_items xs)
      (fun hdouble => hclean hdouble hbar) (reads_bar hread)
    rw [reads_separator] at hread'
    exact ⟨σ', awaited', h', hne', hread'⟩
  · simp [hbar] at hs
  · have hmarks := not_mem_of_not_isMarked (Bool.eq_false_iff.2 hmarked)
    rcases blank_or_next s.toList hmarks.2.1 hbar hread with ⟨hblank, hread'⟩ | ⟨tok, hnext, hbare⟩
    · rw [reads_separator] at hread'
      exact ⟨σ, awaited ++ [s], hawaits ⟨hs', .inl hblank⟩, hne, hread'⟩
    · cases awaited with
      | nil =>
        have hsymbol : Next σ es (.symbol s) :=
          List.IsPrefix.trans ⟨tokensAll xs, by simp [tokensAll, tokens, Sexp.symbol]⟩ h.begins
        have hbares := hbare s (hnext.unique hsymbol)
        rw [not_isBare_of_not_isLegible hs'] at hbares
        cases hbares
      | cons s' awaited => exact (h.not_next_of_bare (List.cons_ne_nil _ _) hnext hbare).elim

/-- A list is opened, so that nothing can be awaited before it. -/
theorem of_list (h : Awaits σ es awaited (tokensAll (.list ys :: xs)))
    (hread : reads single ((renderItems (.list ys :: xs)).toList ++ ')' :: cs) .between σ =
      some es) :
    awaited = [] ∧ Awaits σ.openList es [] (tokensAll ys) ∧
      ∃ cs, reads single ((renderItems ys).toList ++ ')' :: cs) .between σ.openList = some es := by
  rw [toList_items_cons xs rfl, toList_list] at hread
  cases awaited with
  | nil =>
    rw [reads_open (isFull_of_frames h.frames)] at hread
    refine ⟨rfl, ⟨fun s hs => absurd hs List.not_mem_nil, List.cons_ne_nil _ _, ?_⟩, _, hread⟩
    refine List.IsPrefix.trans ?_ h.begins
    exact ⟨.closing :: tokensAll xs, by simp [tokensAll, tokens]⟩
  | cons s awaited =>
    obtain ⟨tok, hnext, hbare⟩ := next_of_dispatch_plain rfl (by decide) (by decide) hread
    exact (h.not_next_of_bare (List.cons_ne_nil _ _) hnext hbare).elim

end Awaits

/-- If the items of a list are read back, no symbol is awaited and all of them are legible. -/
theorem readable_of_items {σ : Shape} {cs : List Char} {awaited : List String} (xs : List Sexp)
    (hclean : ∀ tok ∈ tokensAll xs, Clean tok) (h : Awaits σ es awaited (tokensAll xs))
    (hread : reads single ((renderItems xs).toList ++ ')' :: cs) .between σ = some es) :
    awaited = [] ∧ ∀ tok ∈ tokensAll xs, Readable tok := by
  match xs with
  | [] =>
    refine ⟨?_, fun tok htok => absurd htok List.not_mem_nil⟩
    by_contra hne
    rw [renderItems_nil] at hread
    obtain ⟨tok, hnext, hbare⟩ := next_of_dispatch_plain rfl (by decide) (by decide) hread
    exact h.not_next_of_bare hne hnext hbare
  | x :: xs =>
    have hcleanx : ∀ tok ∈ tokens x, Clean tok := fun tok htok =>
      hclean tok (List.mem_append_left _ htok)
    have hcleanxs : ∀ tok ∈ tokensAll xs, Clean tok := fun tok htok =>
      hclean tok (List.mem_append_right _ htok)
    have hreadable : (∀ tok ∈ tokens x, Readable tok) →
        awaited = [] ∧ ∀ tok ∈ tokensAll (x :: xs), Readable tok := by
      intro hx
      obtain ⟨rfl, h', hread'⟩ := h.of_readable hx hread
      have hxs := (readable_of_items xs hcleanxs h' hread').2
      exact ⟨rfl, fun tok htok => (List.mem_append.1 htok).elim (hx tok) (hxs tok)⟩
    cases x with
    | comment s =>
      refine hreadable fun tok htok => ?_
      obtain rfl := List.mem_singleton.1 htok
      exact hcleanx (.comment s) (List.mem_singleton_self _)
    | list ys =>
      obtain ⟨rfl, h', cs', hread'⟩ := h.of_list hread
      have hys := (readable_of_items ys (fun tok htok => hcleanx tok (by simp [tokens, htok]))
        h' hread').2
      refine hreadable fun tok htok => ?_
      rw [tokens, List.mem_cons, List.mem_append, List.mem_singleton] at htok
      rcases htok with rfl | htok | rfl
      · trivial
      · exact hys tok htok
      · trivial
    | atom a =>
      cases a with
      | numeral n =>
        refine hreadable fun tok htok => ?_
        obtain rfl := List.mem_singleton.1 htok
        trivial
      | symbol s =>
        cases hs : isLegible s with
        | true =>
          refine hreadable fun tok htok => ?_
          obtain rfl := List.mem_singleton.1 htok
          exact hs
        | false =>
          obtain ⟨σ', awaited', h', hne, hread'⟩ :=
            h.of_illegible hs (hcleanx (.symbol s) (List.mem_singleton_self _)) hread
          exact absurd (readable_of_items xs hcleanxs h' hread').1 hne
termination_by sizeOf xs

/-! ## What is read -/

/-- What the current token has come to is clean. -/
def CleanMode : Mode → Prop
  | .symbol text => ∀ c ∈ text, isSymbolChar c = true
  | .quoted mark text => mark.char ∉ text
  | .comment text => '\n' ∉ text
  | _ => True

theorem clean_push {e : Sexp} (hσ : ∀ tok ∈ σ.tokens, Clean tok)
    (he : ∀ tok ∈ e.tokens, Clean tok) : ∀ tok ∈ (σ.push e).tokens, Clean tok := by
  intro tok htok
  rw [Shape.tokens_push] at htok
  exact (List.mem_append.1 htok).elim (hσ tok) (he tok)

theorem clean_settle {σ' : Shape} (hσ : ∀ tok ∈ σ.tokens, Clean tok) (hmode : CleanMode mode)
    (h : mode.settle σ = some σ') : ∀ tok ∈ σ'.tokens, Clean tok := by
  cases mode with
  | between => exact Option.some.inj h ▸ hσ
  | symbol text =>
    obtain rfl := Option.some.inj h
    refine clean_push hσ fun tok htok => ?_
    obtain rfl := List.mem_singleton.1 htok
    intro _ hbar
    rw [String.toList_ofList, List.mem_reverse] at hbar
    exact absurd (hmode '|' hbar) (by decide)
  | numeral value =>
    rw [Mode.settle, Shape.pushNumeral] at h
    split at h
    next =>
      obtain rfl := Option.some.inj h
      refine clean_push hσ fun tok htok => ?_
      obtain rfl := List.mem_singleton.1 htok
      trivial
    next => cases h
  | quoted mark text => cases h
  | comment text =>
    obtain rfl := Option.some.inj h
    refine clean_push hσ fun tok htok => ?_
    obtain rfl := List.mem_singleton.1 htok
    rwa [Clean, String.toList_ofList, List.mem_reverse]

theorem clean_quoted {mark : Quote} {text : List Char} (hσ : ∀ tok ∈ σ.tokens, Clean tok)
    (htext : mark.char ∉ text) : ∀ tok ∈ (σ.pushSymbol text).tokens, Clean tok := by
  refine clean_push hσ fun tok htok => ?_
  obtain rfl := List.mem_singleton.1 htok
  intro hdouble
  rw [String.toList_ofList, List.mem_reverse] at hdouble ⊢
  cases mark with
  | bar => exact htext
  | double => exact absurd hdouble htext

theorem clean_dispatch {r : Mode × Shape} (hσ : ∀ tok ∈ σ.tokens, Clean tok)
    (h : σ.dispatch single c = some r) : (∀ tok ∈ r.2.tokens, Clean tok) ∧ CleanMode r.1 := by
  unfold Shape.dispatch at h
  split_ifs at h
  · exact Option.some.inj h ▸ ⟨hσ, trivial⟩
  · exact Option.some.inj h ▸ ⟨hσ, List.not_mem_nil⟩
  · exact Option.some.inj h ▸ ⟨hσ, List.not_mem_nil⟩
  · exact Option.some.inj h ▸ ⟨hσ, List.not_mem_nil⟩
  · obtain rfl := Option.some.inj h
    refine ⟨fun tok htok => ?_, trivial⟩
    rw [Shape.tokens_openList, List.mem_append, List.mem_singleton] at htok
    rcases htok with htok | rfl
    · exact hσ tok htok
    · trivial
  · obtain ⟨σ', hclose, rfl⟩ := Option.map_eq_some_iff.1 h
    refine ⟨fun tok htok => ?_, trivial⟩
    rw [Shape.tokens_closeList hclose, List.mem_append, List.mem_singleton] at htok
    rcases htok with htok | rfl
    · exact hσ tok htok
    · trivial
  · exact Option.some.inj h ▸ ⟨hσ, trivial⟩
  next hstart =>
    obtain rfl := Option.some.inj h
    refine ⟨hσ, fun d hd => ?_⟩
    obtain rfl := List.mem_singleton.1 hd
    exact isSymbolChar_of_start hstart

theorem clean_take {r : Mode × Shape} (hσ : ∀ tok ∈ σ.tokens, Clean tok) (hmode : CleanMode mode)
    (h : mode.take single σ c = some r) : (∀ tok ∈ r.2.tokens, Clean tok) ∧ CleanMode r.1 := by
  cases mode with
  | between => exact clean_dispatch hσ h
  | symbol text =>
    rw [Mode.take] at h
    split at h
    next hc =>
      obtain rfl := Option.some.inj h
      exact ⟨hσ, fun d hd => (List.mem_cons.1 hd).elim (fun heq => heq ▸ hc) (hmode d)⟩
    next => exact clean_dispatch (clean_settle hσ hmode rfl) h
  | numeral value =>
    rw [Mode.take] at h
    split at h
    next => exact Option.some.inj h ▸ ⟨hσ, trivial⟩
    next =>
      obtain ⟨σ', hpush, hdispatch⟩ := Option.bind_eq_some_iff.1 h
      have hnumeral : CleanMode (.numeral value) := trivial
      exact clean_dispatch (clean_settle hσ hnumeral hpush) hdispatch
  | quoted mark text =>
    rw [Mode.take] at h
    split at h
    next => exact Option.some.inj h ▸ ⟨clean_quoted hσ hmode, trivial⟩
    next hc =>
      obtain rfl := Option.some.inj h
      exact ⟨hσ, fun hd => (List.mem_cons.1 hd).elim (fun heq => hc heq.symm) hmode⟩
  | comment text =>
    rw [Mode.take] at h
    split at h
    next => exact Option.some.inj h ▸ ⟨clean_settle hσ hmode rfl, trivial⟩
    next hc =>
      obtain rfl := Option.some.inj h
      exact ⟨hσ, fun hd => (List.mem_cons.1 hd).elim (fun heq => hc heq.symm) hmode⟩

theorem clean_reads (hσ : ∀ tok ∈ σ.tokens, Clean tok) (hmode : CleanMode mode)
    (h : reads single cs mode σ = some es) : ∀ tok ∈ tokensAll es, Clean tok := by
  induction cs generalizing mode σ with
  | nil =>
    obtain ⟨σ', hsettle, hfinish⟩ := Option.bind_eq_some_iff.1 h
    rw [Shape.tokens_finish hfinish]
    exact clean_settle hσ hmode hsettle
  | cons c cs ih =>
    obtain ⟨r, htake, h⟩ := Option.bind_eq_some_iff.1 h
    obtain ⟨hσ', hmode'⟩ := clean_take hσ hmode htake
    exact ih hσ' hmode' h

end Reader

open Reader

/-- A symbol that is read back from what is printed for it is legible. -/
theorem isLegible_of_reads {s : String} {rest : List Sexp}
    (h : reads true (Atom.symbol s).render.toList .between .empty = some (.symbol s :: rest)) :
    isLegible s = true := by
  have hs : Next .empty (.symbol s :: rest) (.symbol s) := ⟨tokensAll rest, rfl⟩
  by_contra hlegible
  rw [Bool.not_eq_true] at hlegible
  have hillegible := hlegible
  rw [isLegible] at hlegible
  rw [render_symbol] at h
  split_ifs at h hlegible with hmarked hbar
  · have hbar : '|' ∈ s.toList := by simpa using hlegible
    obtain ⟨u, v, huv, hu⟩ := List.eq_append_cons_of_mem hbar
    have hquoted := reads_bar h
    rw [huv, List.append_assoc, List.cons_append] at hquoted
    have hread : reads true (u ++ '|' :: (v ++ ['|'])) (.quoted .bar []) .empty =
        reads true (v ++ ['|']) .between (Shape.empty.pushSymbol (u.reverse ++ [])) :=
      reads_quoted .bar u [] hu
    rw [hread, List.append_nil, Shape.pushSymbol, List.reverse_reverse] at hquoted
    have hnext : Next .empty (.symbol s :: rest) (.symbol (String.ofList u)) :=
      next_of_push rfl hquoted
    injection hnext.unique hs with hatom
    injection hatom with heq
    rw [← heq, String.toList_ofList] at hbar
    exact hu hbar
  · simp [hbar] at hlegible
  · have hmarks := not_mem_of_not_isMarked (Bool.eq_false_iff.2 hmarked)
    rw [← List.append_nil s.toList] at h
    rcases blank_or_next s.toList hmarks.2.1 hbar h with ⟨-, hend⟩ | ⟨tok, hnext, hbare⟩
    · cases hend
    · have hbares := hbare s (hnext.unique hs)
      rw [not_isBare_of_not_isLegible hillegible] at hbares
      cases hbares

/-- A tree that is read back from what is printed for it has legible symbols alone. -/
theorem readable_of_reads {e : Sexp} {rest : List Sexp} (hclean : ∀ tok ∈ e.tokens, Clean tok)
    (h : reads true e.render.toList .between .empty = some (e :: rest)) :
    ∀ tok ∈ e.tokens, Readable tok := by
  cases e with
  | comment s =>
    intro tok htok
    obtain rfl := List.mem_singleton.1 htok
    exact hclean _ htok
  | atom a =>
    intro tok htok
    obtain rfl := List.mem_singleton.1 htok
    cases a with
    | numeral n => trivial
    | symbol s =>
      rw [render_atom] at h
      exact isLegible_of_reads h
  | list xs =>
    have hempty : Shape.empty.isFull true = false := rfl
    rw [← List.append_nil (render (.list xs)).toList, toList_list, reads_open hempty] at h
    have hawaits : Awaits Shape.empty.openList (.list xs :: rest) [] (tokensAll xs) := by
      refine ⟨fun s hs => absurd hs List.not_mem_nil, List.cons_ne_nil _ _, ?_⟩
      exact ⟨.closing :: tokensAll rest, by
        simp [Shape.openList, Shape.tokens, Shape.empty, tokensAll, tokens]⟩
    have hxs := (readable_of_items xs (fun tok htok => hclean tok (by simp [tokens, htok]))
      hawaits h).2
    intro tok htok
    rw [tokens, List.mem_cons, List.mem_append, List.mem_singleton] at htok
    rcases htok with rfl | htok | rfl
    · trivial
    · exact hxs tok htok
    · trivial

/-- A tree that is read is read back from what is printed for it if and only if all its symbols are
legible. -/
theorem parse_render_iff {text : String} {e : Sexp} (h : parse text = .ok e) :
    parse e.render = .ok e ↔ ∀ s, Token.symbol s ∈ e.tokens → isLegible s = true := by
  obtain ⟨rest, hreads⟩ := parse_eq_ok_iff.1 h
  have hbetween : CleanMode .between := trivial
  have hclean : ∀ tok ∈ e.tokens, Clean tok := fun tok htok =>
    clean_reads (fun tok htok => absurd htok List.not_mem_nil) hbetween hreads tok
      (List.mem_append_left _ htok)
  rw [parse_eq_ok_iff]
  constructor
  · rintro ⟨rest', hrender⟩ s hs
    exact readable_of_reads hclean hrender _ hs
  · intro hlegible
    refine ⟨[], reads_render_empty fun tok htok => ?_⟩
    cases tok with
    | atom a =>
      cases a with
      | numeral n => trivial
      | symbol s => exact hlegible s htok
    | comment s => exact hclean _ htok
    | opening => trivial
    | closing => trivial

/-- A list with quoted symbols, a numeral and a comment. -/
theorem parse_render_quoted : ∃ e, parse "(|a b| 1 ;c\n(x'))" = .ok e ∧ parse e.render = .ok e := by
  have h : parse "(|a b| 1 ;c\n(x'))" =
      .ok (.list [.symbol "a b", .numeral 1, .comment "c", .list [.symbol "x'"]]) :=
    parse_eq_ok_iff.2 ⟨[], by rfl⟩
  refine ⟨_, h, (parse_render_iff h).2 fun s hs => ?_⟩
  have hs' : s = "a b" ∨ s = "x'" := by
    simpa [tokens, tokensAll, Sexp.symbol, Sexp.numeral] using hs
  rcases hs' with rfl | rfl <;> decide

/-- A symbol of digits is read back as a numeral. -/
theorem digits_not_read_back : parse "|1|" = .ok (.symbol "1") ∧
    parse (Sexp.symbol "1").render = .ok (.numeral 1) := by
  have hrender : (Sexp.symbol "1").render = "1" := by
    rw [Sexp.symbol, render_atom]
    rfl
  rw [hrender]
  exact ⟨parse_eq_ok_iff.2 ⟨[], by rfl⟩, parse_eq_ok_iff.2 ⟨[], by rfl⟩⟩

end Sexp

end InvariantSearch
