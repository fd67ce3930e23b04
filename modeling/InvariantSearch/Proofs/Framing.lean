import InvariantSearch.Solver.Reply

/-!
# The frame of a reply

What a solver writes is read by lines: `Reply.Framed output reply rest` says that some lines that
are not the marker make up the reply, that a line that is the marker follows, and that the rest is
left. `Reply.split` finds this frame if there is one (`split_eq_some_iff`). A text of which no line
is the marker is a reply as a whole, once the marker follows it (`framed_text`).
-/

namespace InvariantSearch

namespace Reply

variable {output reply rest : List Char} {ls : List (List Char)}

/-- The text of lines, each with the line feed that ends it. -/
def ofLines (ls : List (List Char)) : List Char := ls.flatMap (· ++ ['\n'])

/-- Lines of a reply, none of which is the marker. -/
def Unmarked (ls : List (List Char)) : Prop := ∀ l ∈ ls, '\n' ∉ l ∧ isMarker l = false

theorem unmarked_nil : Unmarked [] := by simp [Unmarked]

/-- Output begins with lines that are not the marker, which are the reply, and goes on with a line
that is. White space at the end of the reply does not count. What follows the line of the marker is
left, and so is nothing if the output ends with it. -/
inductive Framed : List Char → List Char → List Char → Prop
  | ended {ls : List (List Char)} {last : List Char} (rest : List Char) (hls : Unmarked ls)
      (hlast : '\n' ∉ last) (hmarker : isMarker last = true) :
      Framed (ofLines ls ++ last ++ '\n' :: rest) (trimEnd (ofLines ls)) rest
  | unended {ls : List (List Char)} {last : List Char} (hls : Unmarked ls) (hlast : '\n' ∉ last)
      (hmarker : isMarker last = true) :
      Framed (ofLines ls ++ last) (trimEnd (ofLines ls)) []

/-! ## Finding the frame -/

/-- The scan of a line up to its line feed. -/
theorem scan_line {l : List Char} (hl : '\n' ∉ l) (before line cs : List Char) :
    scan before line (l ++ '\n' :: cs) =
      if isMarker (line.reverse ++ l) then some (trimEnd before.reverse, cs)
      else scan ('\n' :: ((line.reverse ++ l).reverse ++ before)) [] cs := by
  induction l generalizing line with
  | nil => simp [scan]
  | cons c l ih =>
    obtain ⟨hc, hl⟩ := not_or.1 (mt List.mem_cons.2 hl)
    rw [List.cons_append, scan, if_neg (Ne.symm hc), ih hl]
    simp

/-- The scan of a line that is not ended. -/
theorem scan_last {l : List Char} (hl : '\n' ∉ l) (before line : List Char) :
    scan before line l =
      if isMarker (line.reverse ++ l) then some (trimEnd before.reverse, []) else none := by
  induction l generalizing line with
  | nil => simp [scan]
  | cons c l ih =>
    obtain ⟨hc, hl⟩ := not_or.1 (mt List.mem_cons.2 hl)
    rw [scan, if_neg (Ne.symm hc), ih hl]
    simp

/-- The scan passes over lines that are not the marker. -/
theorem scan_ofLines (hls : Unmarked ls) (before cs : List Char) :
    scan before [] (ofLines ls ++ cs) = scan ((ofLines ls).reverse ++ before) [] cs := by
  induction ls generalizing before with
  | nil => rfl
  | cons l ls ih =>
    obtain ⟨⟨hl, hmarker⟩, hls⟩ := List.forall_mem_cons.1 hls
    rw [show ofLines (l :: ls) ++ cs = l ++ '\n' :: (ofLines ls ++ cs) by simp [ofLines],
      scan_line hl, if_neg (by simp [hmarker]), ih hls]
    simp [ofLines]

/-- Where the scan finds a frame, after lines that are not the marker and a part of a line. -/
theorem framed_of_scan (hls : Unmarked ls) {line cs : List Char} (hline : '\n' ∉ line)
    (h : scan (ofLines ls).reverse line cs = some (reply, rest)) :
    Framed (ofLines ls ++ line.reverse ++ cs) reply rest := by
  induction cs generalizing ls line with
  | nil =>
    rw [scan] at h
    split at h
    next hmarker =>
      obtain ⟨rfl, rfl⟩ : _ ∧ _ := by simpa using h
      simpa using Framed.unended hls (by simpa using hline) hmarker
    next => cases h
  | cons c cs ih =>
    rw [scan] at h
    split at h
    next hc =>
      subst hc
      split at h
      next hmarker =>
        obtain ⟨rfl, rfl⟩ : _ ∧ _ := by simpa using h
        exact Framed.ended cs hls (by simpa using hline) hmarker
      next hmarker =>
        have hls' : Unmarked (ls ++ [line.reverse]) := List.forall_mem_append.2
          ⟨hls, by simpa using ⟨hline, Bool.eq_false_iff.2 hmarker⟩⟩
        have hframed := ih hls' List.not_mem_nil (by simpa [ofLines] using h)
        simpa [ofLines] using hframed
    next hc =>
      have hframed := ih hls (by simp [hline, Ne.symm hc]) h
      simpa using hframed

/-- Output is split at the marker exactly if it is framed. -/
theorem split_eq_some_iff : split output = some (reply, rest) ↔ Framed output reply rest := by
  constructor
  · intro h
    exact framed_of_scan unmarked_nil List.not_mem_nil h
  · rintro (⟨rest, hls, hlast, hmarker⟩ | ⟨hls, hlast, hmarker⟩)
    · rw [split, List.append_assoc, scan_ofLines hls, scan_line hlast,
        if_pos (by simpa using hmarker)]
      simp
    · rw [split, scan_ofLines hls, scan_last hlast, if_pos (by simpa using hmarker)]
      simp

/-- A frame is found in one way only. -/
theorem Framed.unique {reply' rest' : List Char} (h : Framed output reply rest)
    (h' : Framed output reply' rest') : reply = reply' ∧ rest = rest' := by
  have heq := (split_eq_some_iff.2 h).symm.trans (split_eq_some_iff.2 h')
  simpa using heq

/-! ## Texts without the marker -/

/-- The lines of a text followed by a line feed. -/
theorem ofLines_splitOn (t : List Char) : ofLines (t.splitOn '\n') = t ++ ['\n'] := by
  induction t with
  | nil => simp [ofLines]
  | cons c t ih =>
    rw [List.splitOn_cons_eq_if_modifyHead]
    split
    next hc => simpa [ofLines, eq_of_beq hc] using ih
    next =>
      obtain ⟨l, ls, hls⟩ := List.exists_cons_of_ne_nil (List.splitOn_ne_nil '\n' t)
      rw [hls] at ih ⊢
      simpa [ofLines] using ih

theorem not_mem_of_mem_splitOn {t l : List Char} (hl : l ∈ t.splitOn '\n') : '\n' ∉ l := by
  induction t generalizing l with
  | nil =>
    obtain rfl : l = [] := by simpa using hl
    exact List.not_mem_nil
  | cons c t ih =>
    rw [List.splitOn_cons_eq_if_modifyHead] at hl
    obtain ⟨l', ls, hls⟩ := List.exists_cons_of_ne_nil (List.splitOn_ne_nil '\n' t)
    rw [hls] at hl ih
    split at hl
    next =>
      rcases List.mem_cons.1 hl with rfl | hl
      · exact List.not_mem_nil
      · exact ih hl
    next hc =>
      rcases List.mem_cons.1 hl with rfl | hl
      · exact fun hmem => (List.mem_cons.1 hmem).elim (fun h => hc (by simpa using h.symm))
          (ih List.mem_cons_self)
      · exact ih (List.mem_cons_of_mem _ hl)

theorem trimEnd_concat_newline (t : List Char) : trimEnd (t ++ ['\n']) = trimEnd t := by
  have hblank : isWhiteSpace '\n' = true := by decide
  simp [trimEnd, hblank]

/-- A text of which no line is the marker is a reply as a whole, once the marker follows it. -/
theorem framed_text {t last : List Char} (ht : ∀ l ∈ t.splitOn '\n', isMarker l = false)
    (hlast : '\n' ∉ last) (hmarker : isMarker last = true) (rest : List Char) :
    Framed (t ++ '\n' :: (last ++ '\n' :: rest)) (trimEnd t) rest := by
  have hframed := Framed.ended rest (fun l hl => ⟨not_mem_of_mem_splitOn hl, ht l hl⟩) hlast hmarker
  rw [ofLines_splitOn, trimEnd_concat_newline] at hframed
  simpa using hframed

/-- A text of which no line is the marker has no frame. -/
theorem not_framed {t : List Char} (ht : ∀ l ∈ t.splitOn '\n', isMarker l = false) :
    ¬Framed t reply rest := by
  have hsplit {ls : List (List Char)} (hls : Unmarked ls) (cs : List Char) :
      (ofLines ls ++ cs).splitOn '\n' = ls ++ cs.splitOn '\n' := by
    induction ls with
    | nil => rfl
    | cons l ls ih =>
      obtain ⟨⟨hl, -⟩, hls⟩ := List.forall_mem_cons.1 hls
      rw [show ofLines (l :: ls) ++ cs = l ++ '\n' :: (ofLines ls ++ cs) by simp [ofLines],
        List.splitOn_append_cons_self_of_not_mem hl, ih hls, List.cons_append]
  rintro (⟨rest, hls, hlast, hmarker⟩ | ⟨hls, hlast, hmarker⟩)
  · rw [List.append_assoc, hsplit hls, List.splitOn_append_cons_self_of_not_mem hlast] at ht
    simpa [hmarker] using ht _ (List.mem_append_right _ List.mem_cons_self)
  · rw [hsplit hls, List.splitOn_eq_singleton hlast] at ht
    simpa [hmarker] using ht _ (List.mem_append_right _ List.mem_cons_self)

end Reply

end InvariantSearch
