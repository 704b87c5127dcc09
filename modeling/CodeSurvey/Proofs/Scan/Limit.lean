import CodeSurvey.Proofs.Mask.Splice
import CodeSurvey.Scan

/-!
# The line limit

A text is cut behind the last line feed within the limit, unless nothing follows there. No token has
a line feed and a backslash hides none, so the walk of the mask does not look past one: what is
shown in front of the cut is what is shown of the text up to it. Line feeds are always shown, so the
masked text is cut at the same place.
-/
namespace CodeSurvey

namespace Mask

variable {lexis : Lexis} {mode : Mode}

/-- No token has a line feed. -/
def OneLine (lexis : Lexis) : Prop :=
  ∀ token ∈ tokens lexis, '\n' ∉ token

/-- What follows a line feed makes no difference in front of it. -/
theorem before_newline (hvisible : lexis.Visible) (hline : OneLine lexis) {cs more : List Char}
    (h : Reached mode (cs ++ '\n' :: more)) (rest : List Char) :
    modeAfter lexis mode cs ('\n' :: rest) = modeAfter lexis mode cs ('\n' :: more) ∧
      maskBefore lexis mode cs ('\n' :: rest) = maskBefore lexis mode cs ('\n' :: more) := by
  refine before_congr (fun mode cs => Reached mode (cs ++ '\n' :: more)) ?_ h
  intro mode c cs hreached
  have hnewline := hreached.not_mem_tokens hline (by decide)
  refine ⟨step_congr ?_ ?_, (hreached.followed hvisible).reached⟩
  · intro token htoken
    rw [← List.cons_append, ← List.cons_append, isPrefixOf_append_cons (hnewline token htoken),
      isPrefixOf_append_cons (hnewline token htoken)]
  · intro _ _ _
    cases cs <;> rfl

/-- A line feed is shown in every mode. -/
theorem maskFrom_newline (lexis : Lexis) (mode : Mode) (rest : List Char) :
    maskFrom lexis mode ('\n' :: rest) =
      '\n' :: maskFrom lexis (step lexis mode '\n' rest).2 rest := by
  have hnewline : blankOut '\n' = ['\n'] := rfl
  rw [maskFrom_cons, hnewline, ite_self, List.singleton_append]

/-- The masked text up to a line feed is what is shown of the text up to it. -/
theorem mask_line (hvisible : lexis.Visible) (hline : OneLine lexis) (before after : List Char) :
    ∃ shown rest, mask lexis (before ++ '\n' :: after) = shown ++ '\n' :: rest ∧
      mask lexis (before ++ ['\n']) = shown ++ ['\n'] ∧ Blanked before shown ∧
      Blanked after rest := by
  have hshown := (before_newline hvisible hline (.code (before ++ ['\n'])) after).2
  have htext := maskFrom_append lexis .code before ('\n' :: after)
  rw [hshown, maskFrom_newline] at htext
  have hcut := maskFrom_append lexis .code before ['\n']
  rw [maskFrom_newline] at hcut
  exact ⟨_, _, htext, hcut, blanked_maskBefore .., blanked_maskFrom ..⟩

theorem Blanked.eq_nil_iff {text shown : List Char} (h : Blanked text shown) :
    shown = [] ↔ text = [] := by
  cases h with
  | nil => exact Iff.rfl
  | keep c _ => simp
  | @blank c _ _ _ _ => simp [Nat.ne_of_gt c.utf8Size_pos]

end Mask

theorem Language.oneLine_lexis (language : Language) : Mask.OneLine language.lexis := by
  cases language <;> simp [Mask.OneLine, Mask.tokens, lexis, Python.lexis, JavaScript.lexis,
    Swift.lexis]

namespace Scan

variable {n : Nat} {text before after : List Char}

/-- The first `n` lines of the text are `before` and the line feed behind it, and `after` follows
them. -/
structure CutAfter (n : Nat) (text before after : List Char) : Prop where
  text_eq : text = before ++ '\n' :: after
  count_eq : before.count '\n' + 1 = n

theorem exists_cutAfter (hpos : n ≠ 0) (h : n ≤ text.count '\n') :
    ∃ before after, CutAfter n text before after := by
  induction text generalizing n with
  | nil => exact absurd (Nat.le_zero.1 h) hpos
  | cons c text ih =>
    by_cases hc : c = '\n'
    · subst hc
      rw [List.count_cons_self] at h
      by_cases hone : n = 1
      · exact ⟨[], text, rfl, hone.symm⟩
      · obtain ⟨before, after, rfl, hcount⟩ := ih (n := n - 1) (by omega) (by omega)
        refine ⟨'\n' :: before, after, rfl, ?_⟩
        rw [List.count_cons_self]
        omega
    · rw [List.count_cons_of_ne hc] at h
      obtain ⟨before, after, rfl, hcount⟩ := ih hpos h
      exact ⟨c :: before, after, rfl, by rwa [List.count_cons_of_ne hc]⟩

theorem CutAfter.splitLines (h : CutAfter n text before after) :
    splitLines n text = (before ++ ['\n'], after) := by
  obtain ⟨rfl, rfl⟩ := h
  induction before with
  | nil =>
    rw [List.nil_append, List.count_nil, Scan.splitLines, if_pos (by rfl), Scan.splitLines]; rfl
  | cons c before ih =>
    by_cases hc : c = '\n'
    · subst hc
      rw [List.cons_append, List.count_cons_self, Scan.splitLines, if_pos (by rfl), ih]
      rfl
    · rw [List.cons_append, List.count_cons_of_ne hc, Scan.splitLines, if_neg (by simpa using hc),
        ih]
      rfl

theorem splitLines_of_count_lt (h : text.count '\n' < n) : splitLines n text = (text, []) := by
  induction text generalizing n with
  | nil => cases n <;> rfl
  | cons c text ih =>
    obtain ⟨m, rfl⟩ := Nat.exists_eq_add_one_of_ne_zero (Nat.ne_of_gt (Nat.zero_lt_of_lt h))
    by_cases hc : c = '\n'
    · subst hc
      rw [List.count_cons_self] at h
      rw [splitLines, if_pos (by rfl), ih (by omega)]
    · rw [List.count_cons_of_ne hc] at h
      rw [splitLines, if_neg (by simpa using hc), ih h]

theorem CutAfter.limitLines (h : CutAfter n text before after) (hafter : after ≠ []) :
    limitLines n text = (before ++ ['\n'], true) := by
  have hpos : n ≠ 0 := by
    rw [← h.count_eq]
    omega
  rw [Scan.limitLines, if_neg hpos, h.splitLines]
  exact if_neg (by simpa using hafter)

theorem limitLines_whole (h : ∀ before after, CutAfter n text before after → after = []) :
    limitLines n text = (text, false) := by
  rw [limitLines]
  split
  · rfl
  · rename_i hpos
    by_cases hcount : n ≤ text.count '\n'
    · obtain ⟨before, after, hcut⟩ := exists_cutAfter hpos hcount
      obtain rfl := h before after hcut
      rw [hcut.splitLines]
      rfl
    · rw [splitLines_of_count_lt (Nat.lt_of_not_le hcount)]
      rfl

theorem CutAfter.mask (h : CutAfter n text before after) (language : Language) :
    ∃ shown rest, CutAfter n (mask language.lexis text) shown rest ∧
      CodeSurvey.mask language.lexis (before ++ ['\n']) = shown ++ ['\n'] ∧
      (rest = [] ↔ after = []) := by
  obtain ⟨rfl, hcount⟩ := h
  obtain ⟨shown, rest, hmask, hline, hbefore, hafter⟩ :=
    Mask.mask_line language.visible_lexis language.oneLine_lexis before after
  exact ⟨shown, rest, ⟨hmask, by rw [hbefore.count_newline, hcount]⟩, hline, hafter.eq_nil_iff⟩

/-- The masked text has no other line feeds than the text. -/
theorem CutAfter.of_mask {lexis : Lexis} {shown rest : List Char}
    (h : CutAfter n (CodeSurvey.mask lexis text) shown rest) :
    ∃ before after, CutAfter n text before after ∧ (rest = [] ↔ after = []) := by
  obtain ⟨heq, hcount⟩ := h
  have hblanked : Mask.Blanked text (CodeSurvey.mask lexis text) :=
    Mask.blanked_maskFrom lexis .code text
  rw [heq] at hblanked
  obtain ⟨before, after, rfl, hbefore, hafter⟩ := hblanked.cut_at (by decide)
  exact ⟨before, after, ⟨rfl, by rw [← hbefore.count_newline, hcount]⟩, hafter.eq_nil_iff⟩

/-- A text is cut behind its `n`th line feed just if something follows there, and it is marked as
cut just if it is. Masking and cutting may change places. -/
theorem limitLines_mask (language : Language) (n : Nat) (text : List Char) :
    let limited := limitLines n text
    limited.1 <+: text ∧
      (limited.1 = text ∨ ∃ before after, CutAfter n text before after ∧
        limited.1 = before ++ ['\n']) ∧
      (limited.2 = true ↔ limited.1 ≠ text) ∧
      (limited.2 = true ↔ ∃ before after, CutAfter n text before after ∧ after ≠ []) ∧
      limitLines n (mask language.lexis text) = (mask language.lexis limited.1, limited.2) := by
  intro limited
  by_cases h : ∃ before after, CutAfter n text before after ∧ after ≠ []
  · obtain ⟨before, after, hcut, hafter⟩ := h
    obtain ⟨shown, rest, hshown, hline, hrest⟩ := hcut.mask language
    have hlimited : limited = (before ++ ['\n'], true) := hcut.limitLines hafter
    have htext : text = (before ++ ['\n']) ++ after := by simpa using hcut.text_eq
    have hproper : before ++ ['\n'] ≠ text := by
      intro hwhole
      exact hafter (List.append_right_eq_self.1 (htext.symm.trans hwhole.symm))
    rw [hlimited]
    refine ⟨⟨after, htext.symm⟩, .inr ⟨before, after, hcut, rfl⟩, iff_of_true rfl hproper,
      iff_of_true rfl ⟨before, after, hcut, hafter⟩, ?_⟩
    rw [hshown.limitLines (hrest.not.2 hafter), hline]
  · have hwhole : ∀ before after, CutAfter n text before after → after = [] := by
      intro before after hcut
      exact Classical.byContradiction fun hafter => h ⟨before, after, hcut, hafter⟩
    have hlimited : limited = (text, false) := limitLines_whole hwhole
    rw [hlimited]
    refine ⟨List.prefix_rfl, .inl rfl, iff_of_false Bool.false_ne_true (fun hne => hne rfl),
      iff_of_false Bool.false_ne_true h, ?_⟩
    refine limitLines_whole ?_
    intro shown rest hshown
    obtain ⟨before, after, hcut, hrest⟩ := hshown.of_mask
    exact hrest.2 (hwhole before after hcut)

end Scan

end CodeSurvey
