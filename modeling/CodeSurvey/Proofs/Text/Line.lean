import CodeSurvey.SourceText

/-!
# Counting lines

A text has one line more than it has line feeds. Cutting it into pieces, finding the line of an
offset and masking all agree on that number.
-/
namespace CodeSurvey

namespace Text

/-- The number of lines of a text; the last one may be empty. -/
def lineCount (cs : List Char) : Nat :=
  cs.count '\n' + 1

theorem lineCount_le (cs : List Char) : lineCount cs ≤ cs.length + 1 :=
  Nat.succ_le_succ List.count_le_length

theorem length_pieces (cs : List Char) : (pieces cs).length = lineCount cs := by
  induction cs with
  | nil => rfl
  | cons c cs ih =>
    rw [pieces] at ih ⊢
    rw [List.splitOn_cons_eq_if_modifyHead, lineCount, List.count_cons]
    by_cases hc : (c == '\n') = true
    · rw [if_pos hc, if_pos hc, List.length_cons, ih, lineCount]
    · rw [if_neg hc, if_neg hc, List.length_modifyHead, ih, lineCount, Nat.add_zero]

theorem pieces_newline (cs : List Char) : pieces ('\n' :: cs) = [] :: pieces cs := by
  rw [pieces, List.splitOn_cons_eq_if_modifyHead, if_pos (by decide), pieces]

theorem pieces_cons {c : Char} (hc : c ≠ '\n') (cs : List Char) :
    pieces (c :: cs) = (pieces cs).modifyHead (c :: ·) := by
  rw [pieces, List.splitOn_cons_eq_if_modifyHead, if_neg (by simpa using hc), pieces]

/-- What stands in front of the first line feed goes to the first piece. -/
theorem pieces_append_of_not_mem {start : List Char} (h : '\n' ∉ start) (cs : List Char) :
    pieces (start ++ cs) = (pieces cs).modifyHead (start ++ ·) := by
  induction start with
  | nil => cases hs : pieces cs <;> simp [hs]
  | cons c start ih =>
    rw [List.mem_cons, not_or] at h
    rw [List.cons_append, pieces_cons (Ne.symm h.1), ih h.2, List.modifyHead_modifyHead]
    rfl

theorem not_mem_of_mem_splitOn {sep : Char} {cs piece : List Char} (h : piece ∈ cs.splitOn sep) :
    sep ∉ piece := by
  induction cs generalizing piece with
  | nil =>
    rw [List.splitOn_nil, List.mem_singleton] at h
    simp [h]
  | cons c cs ih =>
    rw [List.splitOn_cons_eq_if_modifyHead] at h
    by_cases hc : (c == sep) = true
    · rw [if_pos hc] at h
      rcases List.mem_cons.1 h with rfl | h
      · simp
      · exact ih h
    · rw [if_neg hc] at h
      cases hs : cs.splitOn sep with
      | nil => exact absurd hs (List.splitOn_ne_nil _ _)
      | cons first rest =>
        rw [hs, List.modifyHead_cons] at h
        rcases List.mem_cons.1 h with rfl | h
        · have hfirst := ih (hs ▸ List.mem_cons_self)
          simp only [beq_iff_eq] at hc
          simp [hfirst, Ne.symm hc]
        · exact ih (hs ▸ List.mem_cons_of_mem _ h)

theorem not_mem_of_mem_pieces {cs piece : List Char} (h : piece ∈ pieces cs) : '\n' ∉ piece :=
  not_mem_of_mem_splitOn h

theorem length_startsFrom (offset : Nat) (cs : List Char) :
    (startsFrom offset cs).length = cs.count '\n' := by
  induction cs generalizing offset with
  | nil => rfl
  | cons c cs ih =>
    rw [startsFrom, List.count_cons]
    by_cases hc : (c == '\n') = true
    · rw [if_pos hc, if_pos hc, List.length_cons, ih]
    · rw [if_neg hc, if_neg hc, ih, Nat.add_zero]

theorem LineIndex.lineOf_lt (cs : List Char) (offset : Nat) :
    (ofText cs).lineOf offset < lineCount cs := by
  have hstarts : (ofText cs).starts.length = lineCount cs := by
    rw [ofText, List.length_cons, length_startsFrom, lineCount]
  have hfilter := List.length_filter_le (· ≤ offset) (ofText cs).starts
  have hpos : 0 < lineCount cs := Nat.succ_pos _
  rw [lineOf]
  omega

end Text

theorem Mask.count_blankOut (c : Char) : (Mask.blankOut c).count '\n' = [c].count '\n' := by
  rw [blankOut]
  by_cases hc : (c == '\n') = true
  · rw [if_pos hc]
  · rw [if_neg hc, List.count_replicate, List.count_singleton, if_neg (by decide), if_neg hc]

theorem lineCount_mask (lexis : Lexis) (text : List Char) :
    Text.lineCount (mask lexis text) = Text.lineCount text := by
  have hregions : ∀ (mode : Mask.Mode) (cs : List Char),
      ((Mask.regions lexis mode cs).flatMap fun p =>
        if p.2 = .code then [p.1] else Mask.blankOut p.1).count '\n' = cs.count '\n' := by
    intro mode cs
    induction cs generalizing mode with
    | nil => rfl
    | cons c cs ih =>
      have hsplit : (c :: cs).count '\n' = [c].count '\n' + cs.count '\n' := by
        rw [← List.singleton_append, List.count_append]
      rw [Mask.regions, List.flatMap_cons, List.count_append, ih, hsplit]
      by_cases hcode : (Mask.step lexis mode c cs).1 = .code
      · simp [hcode]
      · simp [hcode, Mask.count_blankOut]
  exact congrArg (· + 1) (hregions _ text)

namespace SourceText

variable {lexis : Lexis} {text : List Char}

theorem lt_of_mem_numberedLines {line : List Char} {i : Nat}
    (h : (line, i) ∈ (ofText lexis text).numberedLines) : i < Text.lineCount text := by
  have hi := (List.mem_zipIdx' h).1
  rwa [ofText, Text.length_pieces, lineCount_mask] at hi

end SourceText

end CodeSurvey
