import CodeSurvey.Proofs.Attribution.Gap
import CodeSurvey.Proofs.Mask.Splice

/-!
# The body of a literal

No head is found between the quotes of a literal, and none in front of them goes on differently. But
the line of the closing quotes takes part in scopes, and its indentation belongs to the body. So it
is by the width of its last line, and by that alone, that a body can matter for attribution.
-/
namespace CodeSurvey

namespace Python

variable {gap other : List Char} {q : Char}

/-! ### The lines of the two texts -/

theorem indentWidth_quote (hq : q = '"' ∨ q = '\'') (line rest : List Char) :
    indentWidth (line ++ q :: rest) = indentWidth line := by
  have hblank : Text.isBlank q = false := by rcases hq with rfl | rfl <;> rfl
  rw [indentWidth, Text.takeWhile_append_stop hblank, indentWidth]

theorem indentWidth_of_spaces {line : List Char} (h : ∀ c ∈ line, c = ' ') :
    indentWidth line = line.length := by
  rw [List.eq_replicate_of_mem h, List.length_replicate, indentWidth,
    List.takeWhile_eq_self_iff.2 fun c hc => List.eq_of_mem_replicate hc ▸ rfl]
  generalize line.length = n
  induction n with
  | zero => rfl
  | succ n ih =>
    rw [List.replicate_succ, List.foldr_cons, ih, if_neg (by decide), Nat.add_comm]

theorem class_quote (hq : q = '"' ∨ q = '\'') (line more : List Char) :
    (classHead.matchHead? (line ++ q :: more)).map (fun m => m.string "name") =
      (classHead.matchHead? line).map fun m => m.string "name" := by
  rw [(ignores_quote hq more).1.matchHead?]
  cases hmatch : classHead.matchHead? line with
  | none => rfl
  | some m => simp only [Option.map_some, Pattern.Match.string_extend hmatch]

theorem functionIn?_quote (hq : q = '"' ∨ q = '\'') (rest line more : List Char) :
    functionIn? rest (line ++ q :: more) = functionIn? rest line := by
  have hextend := (ignores_quote hq more).2.matchHead? line
  cases hmatch : defHead.matchHead? line with
  | none =>
    rw [hmatch, Option.map_none] at hextend
    rw [functionIn?, head?, hextend, functionIn?, head?, hmatch]
  | some m =>
    rw [hmatch, Option.map_some] at hextend
    have hstop : (m.extend (q :: more)).whole.stop.offset = m.whole.stop.offset := rfl
    rw [functionIn?_of_match hextend, functionIn?_of_match hmatch,
      Pattern.Match.string_extend hmatch, hstop]

theorem headOn?_quote (hq : q = '"' ∨ q = '\'') (rest line more : List Char) :
    headOn? rest (line ++ q :: more) = headOn? rest line := by
  have hclass := congrArg (Option.map fun name => (FrameKind.type, name)) (class_quote hq line more)
  rw [Option.map_map, Option.map_map] at hclass
  rw [headOn?, functionIn?_quote hq, headOn?]
  exact congrArg (fun o => Option.or o _) hclass

theorem resumeFrom_quote (hq : q = '"' ∨ q = '\'') (resume number : Nat)
    (rest line more : List Char) :
    resumeFrom resume number rest (line ++ q :: more) = resumeFrom resume number rest line := by
  have hclass := congrArg Option.isSome (class_quote hq line more)
  rw [Option.isSome_map, Option.isSome_map] at hclass
  rw [resumeFrom, functionIn?_quote hq, hclass, resumeFrom]

/-- The first line of a text, if a quote stands on it. -/
theorem headedFrom_quote (hq : q = '"' ∨ q = '\'') {line : List Char} (hline : '\n' ∉ line)
    (resume number : Nat) (rest : List Char) :
    headedFrom resume number (Text.pieces (line ++ q :: rest)) =
      if number < resume then headedFrom resume (number + 1) (Text.pieces rest).tail
      else ⟨number, indentWidth line, headOn? (line ++ q :: rest) line⟩ ::
        headedFrom (resumeFrom resume number (line ++ q :: rest) line) (number + 1)
          (Text.pieces rest).tail := by
  have hblank : ∀ more, Text.isBlankLine (line ++ q :: more) = false := by
    intro more
    have hshown : Text.isBlank q = false := by rcases hq with rfl | rfl <;> rfl
    simp [Text.isBlankLine, hshown]
  by_cases hrest : '\n' ∈ rest
  · obtain ⟨first, more, rfl, hfirst⟩ := Text.exists_first_line hrest
    have hwhole : '\n' ∉ line ++ q :: first := by simp [hline, hfirst, Ne.symm (quote_ne hq).2]
    rw [← List.cons_append, ← List.append_assoc, headedFrom_next hwhole, hblank, Bool.or_false,
      indentWidth_quote hq, headOn?_quote hq, resumeFrom_quote hq, Text.pieces_line hfirst,
      List.tail_cons]
    simp only [decide_eq_true_eq]
  · have hwhole : '\n' ∉ line ++ q :: rest := by simp [hline, hrest, Ne.symm (quote_ne hq).2]
    rw [headedFrom_last hwhole, hblank, Bool.or_false, indentWidth_quote hq, headOn?_quote hq,
      Text.pieces_of_not_mem hrest, List.tail_cons, headedFrom, headedFrom]
    simp only [decide_eq_true_eq]

/-- Of the lines of a gap only the last one takes part in scopes, as deep as it is wide. -/
theorem headedFrom_gap (hq : q = '"' ∨ q = '\'') (hgap : ∀ c ∈ gap, c = ' ' ∨ c = '\n')
    (resume number : Nat) (rest : List Char) :
    headedFrom resume number (Text.pieces (gap ++ q :: rest)) =
      (if number + gap.count '\n' < resume then []
        else [⟨number + gap.count '\n', (Text.lastLine gap).length, none⟩]) ++
        headedFrom resume (number + gap.count '\n' + 1) (Text.pieces rest).tail := by
  induction gap using Text.line_induction generalizing number with
  | last line hline =>
    have hspaces := spaces_of_gap hgap hline
    obtain ⟨hclass, hdef⟩ := matchHead?_spaces hspaces
    have hfunction : ∀ rest, functionIn? rest line = none := by
      intro rest
      rw [functionIn?, head?, hdef]
      rfl
    have hhead : ∀ rest, headOn? rest line = none := by
      intro rest
      rw [headOn?, hclass, hfunction]
      rfl
    have hresume : ∀ rest, resumeFrom resume number rest line = resume := by
      intro rest
      rw [resumeFrom, hclass, hfunction]
      rfl
    have hcount : number + line.count '\n' =
        number := by rw [List.count_eq_zero.2 hline, Nat.add_zero]
    rw [headedFrom_quote hq hline, hhead, hresume, indentWidth_of_spaces hspaces,
      Text.lastLine_of_not_mem hline, hcount]
    split <;> rfl
  | next line gap hline ih =>
    obtain ⟨hfirst, hmore⟩ := List.forall_mem_append.1 hgap
    have hblank : Text.isBlankLine line = true := by
      rw [Text.isBlankLine, List.all_eq_true]
      exact fun c hc => spaces_of_gap hfirst hline c hc ▸ rfl
    have hcount : number + (line ++ '\n' :: gap).count '\n' = number + 1 + gap.count '\n' := by
      rw [List.count_append, List.count_eq_zero.2 hline, List.count_cons_self]
      omega
    rw [List.append_assoc, List.cons_append, headedFrom_next hline, hblank, Bool.or_true,
      if_pos rfl, ih (fun c hc => hmore c (List.mem_cons_of_mem _ hc)), hcount,
      Text.lastLine_newline]

/-- The lines below a quote in front of a gap. -/
theorem headedFrom_tail_gap (hq : q = '"' ∨ q = '\'') (hgap : ∀ c ∈ gap, c = ' ' ∨ c = '\n')
    (resume number : Nat) (rest : List Char) :
    headedFrom resume (number + 1) (Text.pieces (gap ++ q :: rest)).tail =
      (if '\n' ∈ gap ∧ resume ≤ number + gap.count '\n'
        then [⟨number + gap.count '\n', (Text.lastLine gap).length, none⟩] else []) ++
        headedFrom resume (number + gap.count '\n' + 1) (Text.pieces rest).tail := by
  by_cases hmem : '\n' ∈ gap
  · obtain ⟨line, more, rfl, hline⟩ := Text.exists_first_line hmem
    have hcount : number + (line ++ '\n' :: more).count '\n' = number + 1 + more.count '\n' := by
      rw [List.count_append, List.count_eq_zero.2 hline, List.count_cons_self]
      omega
    rw [List.append_assoc, List.cons_append, Text.pieces_line hline, List.tail_cons,
      headedFrom_gap hq fun c hc => hgap c (by simp [hc]), hcount, Text.lastLine_newline]
    by_cases hresume : number + 1 + more.count '\n' < resume
    · rw [if_pos hresume, if_neg fun h => by omega]
    · rw [if_neg hresume, if_pos ⟨hmem, by omega⟩]
  · have hquote : (Text.pieces (gap ++ q :: rest)).tail = (Text.pieces rest).tail := by
      rw [Text.pieces_append_of_not_mem hmem, Text.pieces_cons (quote_ne hq).2,
        List.tail_modifyHead, List.tail_modifyHead]
    rw [hquote, if_neg fun h => hmem h.1, List.count_eq_zero.2 hmem, List.nil_append, Nat.add_zero]

theorem Gaps.headedFrom_tail_eq (h : Gaps gap other) (hq : q = '"' ∨ q = '\'') (resume number : Nat)
    (rest : List Char) :
    ∃ closing below,
      (closing = [] ∨ '\n' ∈ gap ∧ closing =
        [⟨number + gap.count '\n', (Text.lastLine gap).length, none⟩]) ∧
      headedFrom resume (number + 1) (Text.pieces (gap ++ q :: rest)).tail = closing ++ below ∧
      headedFrom resume (number + 1) (Text.pieces (other ++ q :: rest)).tail =
        closing.map (fun l => { l with depth := (Text.lastLine other).length }) ++ below := by
  have hsame : '\n' ∈ gap ∧ resume ≤ number + gap.count '\n' ↔
      '\n' ∈ other ∧ resume ≤ number + other.count '\n' := by
    rw [h.mem_newline, h.count_eq]
  rw [headedFrom_tail_gap hq h.left, headedFrom_tail_gap hq h.right, ← h.count_eq]
  by_cases hclosing : '\n' ∈ gap ∧ resume ≤ number + gap.count '\n'
  · rw [if_pos hclosing, if_pos (h.count_eq ▸ hsame.1 hclosing)]
    exact ⟨_, _, .inr ⟨hclosing.1, rfl⟩, rfl, rfl⟩
  · rw [if_neg hclosing, if_neg (h.count_eq ▸ mt hsame.2 hclosing)]
    exact ⟨[], _, .inl rfl, rfl, rfl⟩

/-- All lines of the two texts: the line below a gap has another depth, and that is all. -/
theorem Gaps.headedFrom_eq (h : Gaps gap other) (hq : q = '"' ∨ q = '\'') (before rest : List Char)
    (resume number : Nat) :
    ∃ above closing below,
      (closing = [] ∨ '\n' ∈ gap ∧
        closing =
          [⟨number + before.count '\n' + gap.count '\n', (Text.lastLine gap).length, none⟩]) ∧
      headedFrom resume number (Text.pieces (before ++ q :: (gap ++ q :: rest))) =
        above ++ (closing ++ below) ∧
      headedFrom resume number (Text.pieces (before ++ q :: (other ++ q :: rest))) =
        above ++ (closing.map (fun l => { l with depth := (Text.lastLine other).length }) ++
          below) := by
  induction before using Text.line_induction generalizing resume number with
  | last line hline =>
    have hfunction := h.functionIn?_eq hq line rest (Nat.le_refl _)
    have hhead : headOn? (line ++ q :: (other ++ q :: rest)) line =
        headOn? (line ++ q :: (gap ++ q :: rest)) line := by
      rw [headOn?, headOn?, hfunction]
    have hresume : resumeFrom resume number (line ++ q :: (other ++ q :: rest)) line =
        resumeFrom resume number (line ++ q :: (gap ++ q :: rest)) line := by
      rw [resumeFrom, resumeFrom, hfunction]
    rw [headedFrom_quote hq hline, headedFrom_quote hq hline, hhead, hresume,
      List.count_eq_zero.2 hline, Nat.add_zero]
    split
    · obtain ⟨closing, below, hclosing, hgap, hother⟩ := h.headedFrom_tail_eq hq resume number rest
      exact ⟨[], closing, below, hclosing, hgap, hother⟩
    · obtain ⟨closing, below, hclosing, hgap, hother⟩ := h.headedFrom_tail_eq hq
        (resumeFrom resume number (line ++ q :: (gap ++ q :: rest)) line) number rest
      rw [hgap, hother]
      exact ⟨[_], closing, below, hclosing, rfl, rfl⟩
  | next line before hline ih =>
    have hfunction : functionIn? (line ++ '\n' :: (before ++ q :: (gap ++ q :: rest))) line =
        functionIn? (line ++ '\n' :: (before ++ q :: (other ++ q :: rest))) line := by
      have hle : Text.size line ≤ Text.size (line ++ '\n' :: before) := by simp
      have hsame := h.functionIn?_eq hq (line ++ '\n' :: before) rest hle
      rwa [List.append_assoc, List.append_assoc] at hsame
    have hcount : number + (line ++ '\n' :: before).count '\n' =
        number + 1 + before.count '\n' := by
      rw [List.count_append, List.count_eq_zero.2 hline, List.count_cons_self]
      omega
    rw [List.append_assoc, List.cons_append, headedFrom_next hline, List.append_assoc,
      List.cons_append, headedFrom_next hline, hcount, headOn?, headOn?, resumeFrom, resumeFrom,
      hfunction]
    split
    · exact ih resume (number + 1)
    · obtain ⟨above, closing, below, hclosing, hgap, hother⟩ := ih _ (number + 1)
      rw [hgap, hother]
      exact ⟨_ :: above, closing, below, hclosing, rfl, rfl⟩

end Python

/-! ### Attribution in the two texts -/

/-- A line without a head takes part in attribution by its depth, so another depth matters if and
only if it leaves another scope or another type around a later function. -/
theorem ScopeStack.attributions_reindent (above below : List HeadedLine)
    (number depth other : Nat) :
    empty.attributions (above ++ (⟨number, other, none⟩ :: below)) =
        empty.attributions (above ++ (⟨number, depth, none⟩ :: below)) ↔
      ((above.foldl read .empty).enterLine depth).AgreeOn
      ((above.foldl read .empty).enterLine other) below := by
  have hordered := ordered_empty.foldl_read above
  have hnone : ∀ depth, (above.foldl read .empty).attribution? ⟨number, depth, none⟩ = none :=
    fun _ => rfl
  rw [attributions_append, attributions_append, attributions, attributions, hnone, hnone,
    read_plain, read_plain, List.append_right_inj, List.append_right_inj, eq_comm,
    attributions_eq_iff (hordered.enterLine depth) (hordered.enterLine other)]

namespace Python

/-- A text with a literal between three quotes on either side. -/
def literalText (before : List Char) (q : Char) (body after : List Char) : List Char :=
  before ++ q :: q :: q :: (body ++ q :: q :: q :: after)

variable {before body after : List Char}

/-- Two bodies with the same number of line feeds: the line of the closing quotes may have another
depth. -/
theorem headedLines_literalText (h : Mask.Literal before q body after)
    (hplain : ∀ c ∈ other, c ≠ '"' ∧ c ≠ '\'' ∧ c ≠ '\\')
    (hcount : other.count '\n' = body.count '\n') :
    ∃ above closing below,
      (closing = [] ∨ '\n' ∈ body ∧
        closing = [⟨(before ++ body).count '\n', Text.size (Text.lastLine body), none⟩]) ∧
      headedLines (literalText before q body after) = above ++ (closing ++ below) ∧
      headedLines (literalText before q other after) =
        above ++ (closing.map (fun l => { l with depth := Text.size (Text.lastLine other) }) ++
          below) := by
  have hgaps : Gaps (body.flatMap Mask.blankOut) (other.flatMap Mask.blankOut) := by
    have hmem : ∀ cs : List Char, ∀ c ∈ cs.flatMap Mask.blankOut, c = ' ' ∨ c = '\n' := by
      intro cs c hc
      obtain ⟨d, -, hd⟩ := List.mem_flatMap.1 hc
      exact Mask.eq_of_mem_blankOut hd
    refine ⟨hmem body, hmem other, ?_⟩
    rw [(Mask.blanked_flatMap body).count_newline, (Mask.blanked_flatMap other).count_newline,
      hcount]
  have hcut : ∀ shown gap rest : List Char, shown ++ q :: q :: q :: (gap ++ q :: q :: q :: rest) =
      (shown ++ [q, q]) ++ q :: (gap ++ q :: (q :: q :: rest)) := by simp
  have hfront : (Mask.maskBefore lexis .code before [q, q, q] ++ [q, q]).count '\n' =
      before.count '\n' := by
    have hquotes : '\n' ∉ [q, q] := by simp [Ne.symm (quote_ne h.quote).2]
    rw [List.count_append, (Mask.blanked_maskBefore lexis .code before _).count_newline,
      List.count_eq_zero.2 hquotes, Nat.add_zero]
  have hnewline : '\n' ∈ body.flatMap Mask.blankOut ↔ '\n' ∈ body := by
    rw [← List.count_pos_iff, (Mask.blanked_flatMap body).count_newline, List.count_pos_iff]
  rw [headedLines_eq, headedLines_eq, literalText, literalText, h.mask_eq,
    (h.replace hplain).mask_eq, hcut, hcut]
  obtain ⟨above, closing, below, hclosing, hold, hnew⟩ := hgaps.headedFrom_eq h.quote
    (Mask.maskBefore lexis .code before [q, q, q] ++ [q, q])
    (q :: q :: Mask.maskFrom lexis .code after) 0 0
  refine ⟨above, closing, below, ?_, hold, ?_⟩
  · rwa [hnewline, hfront, (Mask.blanked_flatMap body).count_newline, Mask.length_lastLine_flatMap,
      Nat.zero_add, ← List.count_append] at hclosing
  · rwa [Mask.length_lastLine_flatMap] at hnew

/-- Exchange the body of a literal for another one with the same number of line feeds, without
quotes and backslashes. Then only the line of the closing quotes may change, and of it only the
depth, which is the width of the last line of the body. So all declarations, before the first of
each name is kept, keep their names, lines and scopes if and only if both depths leave the same
scopes around the functions below, and then so does what is kept of them. The depths do so if the
last lines of the bodies are equally wide, or if the body is one line. -/
theorem identity_literalText (before body after other : List Char) (q : Char)
    (h : Mask.Literal before q body after) (hplain : ∀ c ∈ other, c ≠ '"' ∧ c ≠ '\'' ∧ c ≠ '\\')
    (hcount : other.count '\n' = body.count '\n') :
    let text := literalText before q body after
    let exchanged := literalText before q other after
    let width := Text.size (Text.lastLine body)
    let otherWidth := Text.size (Text.lastLine other)
    ∃ above closing below,
      (closing = [] ∨ '\n' ∈ body ∧ closing = [⟨(before ++ body).count '\n', width, none⟩]) ∧
      headedLines text = above ++ (closing ++ below) ∧
      headedLines exchanged = above ++ (closing.map (fun l => { l with depth := otherWidth }) ++
        below) ∧
      let outer := above.foldl ScopeStack.read .empty
      let same := closing ≠ [] → (outer.enterLine width).AgreeOn (outer.enterLine otherWidth) below
      ((allDeclarations exchanged).map Declaration.identity =
        (allDeclarations text).map Declaration.identity ↔ same) ∧
        (same → (declarations exchanged).map Declaration.identity =
          (declarations text).map Declaration.identity) ∧
        ('\n' ∉ body ∨ otherWidth = width → same) := by
  intro text exchanged width otherWidth
  obtain ⟨above, closing, below, hclosing, hold, hnew⟩ := headedLines_literalText h hplain hcount
  refine ⟨above, closing, below, hclosing, hold, hnew, ?_⟩
  intro outer same
  have hiff : (allDeclarations exchanged).map Declaration.identity =
      (allDeclarations text).map Declaration.identity ↔
      same := by
    rw [identity_allDeclarations, identity_allDeclarations, hold, hnew]
    rcases hclosing with rfl | ⟨-, rfl⟩
    · simp [same]
    · refine (ScopeStack.attributions_reindent above below _ width otherWidth).trans ?_
      simp [same, outer]
  refine ⟨hiff, fun hsame => ?_, fun hunchanged hsome => ?_⟩
  · rw [declarations_eq, declarations_eq, Declaration.map_firstOfEachName fun _ => rfl,
      Declaration.map_firstOfEachName fun _ => rfl, hiff.2 hsame]
  · rcases hunchanged with hline | hwidth
    · exact absurd (hclosing.resolve_left hsome).1 hline
    · rw [hwidth]
      exact fun _ _ _ _ _ _ => ⟨fun _ => rfl, fun _ => rfl⟩

/-- A method becomes a function of the file when the closing quotes of a literal above it lose their
indentation. -/
theorem identity_literalText_method :
    let before := "class A:\n    x = ".toList
    let body := "\n    ".toList
    let other := "\n".toList
    let after := "\n    def f(self):\n        pass\n".toList
    Mask.Literal before '"' body after ∧ (∀ c ∈ other, c ≠ '"' ∧ c ≠ '\'' ∧ c ≠ '\\') ∧
      other.count '\n' = body.count '\n' ∧
      (declarations (literalText before '"' body after)).map Declaration.identity =
        [("A.f", 4, .type)] ∧
      (declarations (literalText before '"' other after)).map Declaration.identity =
        [("f", 4, .module)] ∧
      ∃ above closing below,
        headedLines (literalText before '"' body after) = above ++ (closing ++ below) ∧
          closing = [⟨2, 4, none⟩] ∧
          let outer := above.foldl ScopeStack.read .empty
          ¬(outer.enterLine 4).AgreeOn (outer.enterLine 0) below := by
  intro before body other after
  have hliteral : Mask.Literal before '"' body after := by
    refine ⟨.inl rfl, rfl, ?_, rfl⟩
    decide +kernel
  have hplain : ∀ c ∈ other, c ≠ '"' ∧ c ≠ '\'' ∧ c ≠ '\\' := by simp [other]
  have hold : (declarations (literalText before '"' body after)).map Declaration.identity =
      [("A.f", 4, .type)] := by
    decide +kernel
  have hnew : (declarations (literalText before '"' other after)).map Declaration.identity =
      [("f", 4, .module)] := by
    decide +kernel
  obtain ⟨above, closing, below, hclosing, hlines, -, -, hsame, -⟩ :=
    identity_literalText before body after other '"' hliteral hplain rfl
  have hdiffer : ¬(closing ≠ [] → ((above.foldl ScopeStack.read .empty).enterLine 4).AgreeOn
      ((above.foldl ScopeStack.read .empty).enterLine 0) below) := by
    intro hagree
    have hequal := hsame hagree
    rw [hold, hnew] at hequal
    exact absurd hequal (by decide)
  rw [Classical.not_imp] at hdiffer
  exact ⟨hliteral, hplain, rfl, hold, hnew, above, closing, below, hlines,
    (hclosing.resolve_left hdiffer.1).2, hdiffer.2⟩

end Python

end CodeSurvey
