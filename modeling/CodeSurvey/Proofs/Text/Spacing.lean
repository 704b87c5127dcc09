import CodeSurvey.Text.Blank
import Mathlib.Data.List.Chain

/-!
# Single spaces

A text whose only white space is single spaces inside of it is left alone when white space is
trimmed or normalised.
-/
namespace CodeSurvey.Text

variable {cs ds : List Char}

/-- White space is single spaces between other characters. -/
structure Spaced (cs : List Char) : Prop where
  space : ∀ c ∈ cs, isBlank c = true → c = ' '
  first : ∀ c ∈ cs.head?, isBlank c = false
  last : ∀ c ∈ cs.getLast?, isBlank c = false
  single : cs.IsChain fun c d => isBlank c = true → isBlank d = false

theorem spaced_of_forall (h : ∀ c ∈ cs, isBlank c = false) : Spaced cs where
  space c hc hblank := absurd hblank (Bool.eq_false_iff.1 (h c hc))
  first c hc := h c (List.mem_of_mem_head? hc)
  last c hc := h c (List.mem_of_mem_getLast? hc)
  single := by
    refine List.Pairwise.isChain (List.pairwise_of_forall_mem_list ?_)
    intro _ _ d hd _
    exact h d hd

/-- Texts that are not empty may be put together with a space between them. -/
theorem Spaced.append (h : Spaced cs) (hd : Spaced ds) (hcs : cs ≠ []) (hds : ds ≠ []) :
    Spaced (cs ++ ' ' :: ds) where
  space c hc hblank := by
    rcases List.mem_append.1 hc with hc | hc
    · exact h.space c hc hblank
    · rcases List.mem_cons.1 hc with rfl | hc
      · rfl
      · exact hd.space c hc hblank
  first := by
    rw [List.head?_append_of_ne_nil _ hcs]
    exact h.first
  last := by
    rw [List.getLast?_append_of_ne_nil _ (List.cons_ne_nil _ _), List.getLast?_cons_of_ne_nil hds]
    exact hd.last
  single := by
    rw [List.isChain_append, List.isChain_cons]
    refine ⟨h.single, ⟨fun d hhead _ => hd.first d hhead, hd.single⟩, ?_⟩
    intro c hc d _ hblank
    exact absurd hblank (Bool.eq_false_iff.1 (h.last c hc))

theorem dropWhile_of_head {p : Char → Bool} (h : ∀ c ∈ cs.head?, p c = false) :
    cs.dropWhile p = cs := by
  cases cs with
  | nil => rfl
  | cons c cs => rw [List.dropWhile_cons_of_neg (Bool.eq_false_iff.1 (h c rfl))]

theorem dropEndWhile_of_last {p : Char → Bool} (h : ∀ c ∈ cs.getLast?, p c = false) :
    dropEndWhile p cs = cs := by
  rw [dropEndWhile, dropWhile_of_head (by rwa [List.head?_reverse]), List.reverse_reverse]

theorem Spaced.trim (h : Spaced cs) : Text.trim cs = cs := by
  rw [Text.trim, trimStart, dropWhile_of_head h.first, trimEnd, dropEndWhile_of_last h.last]

/-- Spaces around the text are dropped. -/
theorem Spaced.trim_space (h : Spaced cs) : Text.trim (' ' :: cs) = cs := by
  have hspace : trimStart (' ' :: cs) = trimStart cs := List.dropWhile_cons_of_pos rfl
  rw [Text.trim, hspace]
  exact h.trim

theorem Spaced.trim_append_space (h : Spaced cs) (hcs : cs ≠ []) :
    Text.trim (cs ++ [' ']) = cs := by
  have hstart : trimStart (cs ++ [' ']) = cs ++ [' '] := by
    refine dropWhile_of_head ?_
    rw [List.head?_append_of_ne_nil _ hcs]
    exact h.first
  have hspace : trimEnd (cs ++ [' ']) = trimEnd cs := by
    rw [trimEnd, trimEnd, dropEndWhile, List.reverse_concat, List.dropWhile_cons_of_pos rfl,
      dropEndWhile]
  rw [Text.trim, hstart, hspace, trimEnd, dropEndWhile_of_last h.last]

/-! ### Words -/

theorem splitOnP_isBlank (h : ∀ c ∈ cs, isBlank c = true → c = ' ') :
    cs.splitOnP isBlank = cs.splitOn ' ' := by
  induction cs with
  | nil => rfl
  | cons c cs ih =>
    obtain ⟨hc, hcs⟩ := List.forall_mem_cons.1 h
    have hspace : isBlank c = (c == ' ') := by
      rw [Bool.eq_iff_iff, beq_iff_eq]
      exact ⟨hc, fun heq => heq ▸ rfl⟩
    rw [List.splitOn, List.splitOnP_cons_eq_if_modifyHead, List.splitOnP_cons_eq_if_modifyHead,
      ih hcs, hspace]
    rfl

/-- Something stands between any two blanks and behind the last one. -/
theorem exists_splitOnP (hlast : ∀ c ∈ cs.getLast?, isBlank c = false)
    (hsingle : cs.IsChain fun c d => isBlank c = true → isBlank d = false) :
    ∃ piece pieces, cs.splitOnP isBlank = piece :: pieces ∧ (∀ p ∈ pieces, p ≠ []) ∧
      ∀ c ∈ cs.head?, isBlank c = false → piece ≠ [] := by
  induction cs with
  | nil => exact ⟨[], [], rfl, List.forall_mem_nil _, by simp⟩
  | cons c cs ih =>
    rw [List.isChain_cons] at hsingle
    have hlater : ∀ d ∈ cs.getLast?, isBlank d = false := by
      intro d hd
      refine hlast d ?_
      rw [List.getLast?_cons_of_ne_nil (List.ne_nil_of_mem (List.mem_of_mem_getLast? hd))]
      exact hd
    obtain ⟨piece, pieces, hsplit, hpieces, hpiece⟩ := ih hlater hsingle.2
    rw [List.splitOnP_cons_eq_if_modifyHead, hsplit]
    by_cases hblank : isBlank c = true
    · refine ⟨[], piece :: pieces, if_pos hblank, ?_, ?_⟩
      · cases cs with
        | nil => exact absurd hblank (Bool.eq_false_iff.1 (hlast c rfl))
        | cons d cs => exact List.forall_mem_cons.2 ⟨hpiece d rfl (hsingle.1 d rfl hblank), hpieces⟩
      · intro d hd hvisible
        obtain rfl := Option.some.inj hd
        exact absurd hblank (Bool.eq_false_iff.1 hvisible)
    · exact ⟨c :: piece, pieces, if_neg hblank, hpieces, fun _ _ _ => List.cons_ne_nil c piece⟩

theorem Spaced.normalizeBlanks (h : Spaced cs) : Text.normalizeBlanks cs = cs := by
  cases cs with
  | nil => rfl
  | cons c rest =>
    obtain ⟨piece, pieces, hsplit, hpieces, hpiece⟩ := exists_splitOnP h.last h.single
    have hall : ∀ p ∈ piece :: pieces, p ≠ [] :=
      List.forall_mem_cons.2 ⟨hpiece c rfl (h.first c rfl), hpieces⟩
    have hne : ∀ p ∈ (c :: rest).splitOnP isBlank, (!p.isEmpty) = true := by
      rw [hsplit]
      intro p hp
      simpa using hall p hp
    rw [Text.normalizeBlanks, words, List.filter_eq_self.2 hne, splitOnP_isBlank h.space]
    exact List.intercalate_splitOn ' '

theorem isBlank_of_mem_splitOnP (cs : List Char) :
    ∀ p ∈ cs.splitOnP isBlank, ∀ c ∈ p, isBlank c = false := by
  induction cs with
  | nil => simp
  | cons c cs ih =>
    rw [List.splitOnP_cons_eq_if_modifyHead]
    split
    · exact List.forall_mem_cons.2 ⟨List.forall_mem_nil _, ih⟩
    · rename_i hblank
      cases hsplit : cs.splitOnP isBlank with
      | nil => exact List.forall_mem_nil _
      | cons piece pieces =>
        rw [hsplit] at ih
        obtain ⟨hpiece, hpieces⟩ := List.forall_mem_cons.1 ih
        exact List.forall_mem_cons.2 ⟨List.forall_mem_cons.2 ⟨Bool.eq_false_iff.2 hblank, hpiece⟩,
          hpieces⟩

theorem spaced_joined {parts : List (List Char)} (h : ∀ p ∈ parts, Spaced p ∧ p ≠ []) :
    Spaced (joined " " parts) := by
  induction parts with
  | nil => exact spaced_of_forall (List.forall_mem_nil _)
  | cons part parts ih =>
    obtain ⟨⟨hpart, hne⟩, hparts⟩ := List.forall_mem_cons.1 h
    cases parts with
    | nil => simpa [joined, List.intercalate] using hpart
    | cons next parts =>
      have hjoined : joined " " (part :: next :: parts) =
          part ++ ' ' :: joined " " (next :: parts) := by
        simp [joined, List.intercalate]
      rw [hjoined]
      refine hpart.append (ih hparts) hne ?_
      have hnext : next ≠ [] := (hparts next List.mem_cons_self).2
      cases parts <;> simp [joined, List.intercalate, hnext]

/-- These are the texts that normalising leaves alone. -/
theorem spaced_iff : Spaced cs ↔ Text.normalizeBlanks cs = cs := by
  refine ⟨Spaced.normalizeBlanks, fun h => ?_⟩
  rw [← h]
  refine spaced_joined fun p hp => ?_
  obtain ⟨hp, hne⟩ := List.mem_filter.1 hp
  exact ⟨spaced_of_forall (isBlank_of_mem_splitOnP cs p hp), by simpa using hne⟩

instance : DecidablePred Spaced :=
  fun _ => decidable_of_iff _ spaced_iff.symm

/-- White space in front of a text is dropped. -/
theorem normalizeBlanks_space (cs : List Char) :
    Text.normalizeBlanks (' ' :: cs) = Text.normalizeBlanks cs := by
  rw [Text.normalizeBlanks, words, List.splitOnP_cons_eq_if_modifyHead, if_pos (by decide),
    List.filter_cons_of_neg (by simp), Text.normalizeBlanks, words]

end CodeSurvey.Text
