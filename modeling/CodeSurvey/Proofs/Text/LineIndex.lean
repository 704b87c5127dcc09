import CodeSurvey.Proofs.Text.Offset
import Mathlib.Data.List.Basic

/-!
# Offsets and lines

The offset behind a part of a text lies on the line whose number is the number of line feeds in that
part, and what stands there without a line feed stands on that line. Lines that each end in a line
feed start where the lines before them end.
-/
namespace CodeSurvey.Text

theorem takeBytes_append (cs ds : List Char) : takeBytes (size cs) (cs ++ ds) = cs := by
  induction cs with
  | nil => cases ds <;> simp [takeBytes]
  | cons c cs ih =>
    have hpos := c.utf8Size_pos
    rw [List.cons_append, size_cons, takeBytes, if_neg (by omega), Nat.add_sub_cancel_left, ih]

theorem dropBytes_append (cs ds : List Char) : dropBytes (size cs) (cs ++ ds) = ds := by
  induction cs with
  | nil => cases ds <;> simp [dropBytes]
  | cons c cs ih =>
    have hpos := c.utf8Size_pos
    rw [List.cons_append, size_cons, dropBytes, if_neg (by omega), Nat.add_sub_cancel_left, ih]

/-- What stands between two offsets. -/
theorem slice_append {start stop : Nat} {before cs after : List Char} (hstart : start = size before)
    (hstop : stop = size before + size cs) : slice (before ++ (cs ++ after)) start stop = cs := by
  rw [slice, hstart, hstop, dropBytes_append, Nat.add_sub_cancel_left, takeBytes_append]

/-! ### The line of an offset -/

theorem startsFrom_append (offset : Nat) (cs ds : List Char) :
    startsFrom offset (cs ++ ds) = startsFrom offset cs ++ startsFrom (offset + size cs) ds := by
  induction cs generalizing offset with
  | nil => rfl
  | cons c cs ih =>
    rw [List.cons_append, startsFrom, startsFrom, ih, size_cons, Nat.add_assoc]
    split <;> rfl

theorem startsFrom_bounds {offset : Nat} {cs : List Char} {n : Nat} (h : n ∈ startsFrom offset cs) :
    offset < n ∧ n ≤ offset + size cs := by
  induction cs generalizing offset with
  | nil => cases h
  | cons c cs ih =>
    have hpos := c.utf8Size_pos
    rw [startsFrom] at h
    rw [size_cons]
    split at h
    · rcases List.mem_cons.1 h with rfl | h
      · omega
      · have hbounds := ih h
        omega
    · have hbounds := ih h
      omega

theorem LineIndex.lineOf_size (before rest : List Char) :
    (ofText (before ++ rest)).lineOf (size before) = before.count '\n' := by
  have hbefore : ∀ n ∈ 0 :: startsFrom 0 before, decide (n ≤ size before) = true := by
    intro n hn
    rcases List.mem_cons.1 hn with rfl | hn
    · simp
    · have hbounds := startsFrom_bounds hn
      simpa using hbounds.2
  have hrest : ∀ n ∈ startsFrom (0 + size before) rest, ¬decide (n ≤ size before) = true := by
    intro n hn
    have hbounds := startsFrom_bounds hn
    simp only [decide_eq_true_eq]
    omega
  rw [lineOf, ofText, startsFrom_append, ← List.cons_append, List.filter_append,
    List.filter_eq_self.2 hbefore, List.filter_eq_nil_iff.2 hrest, List.append_nil,
    List.length_cons, length_startsFrom, Nat.add_sub_cancel]

theorem LineIndex.lineOf_mono (index : LineIndex) {offset later : Nat} (h : offset ≤ later) :
    index.lineOf offset ≤ index.lineOf later := by
  have hsub : (index.starts.filter (· ≤ offset)).Sublist (index.starts.filter (· ≤ later)) := by
    apply List.monotone_filter_right
    intro n hn
    simp only [decide_eq_true_eq] at hn ⊢
    omega
  have hlen := hsub.length_le
  rw [lineOf, lineOf]
  omega

/-- A part of a text without a line feed stands on the line of its offset. -/
theorem exists_piece (before : List Char) {part : List Char} (after : List Char) (h : '\n' ∉ part) :
    ∃ left right, (pieces (before ++ (part ++ after)))[before.count '\n']? =
      some (left ++ (part ++ right)) := by
  induction before with
  | nil =>
    rw [List.nil_append, pieces_append_of_not_mem h]
    cases hs : pieces after with
    | nil => exact absurd hs (List.splitOn_ne_nil _ _)
    | cons first rest => exact ⟨[], first, rfl⟩
  | cons c before ih =>
    obtain ⟨left, right, hpiece⟩ := ih
    by_cases hc : c = '\n'
    · subst hc
      refine ⟨left, right, ?_⟩
      rw [List.cons_append, pieces_newline, List.count_cons_self, List.getElem?_cons_succ]
      exact hpiece
    · rw [List.cons_append, pieces_cons hc, List.count_cons_of_ne hc,
        List.getElem?_modifyHead, hpiece]
      split
      · exact ⟨c :: left, right, rfl⟩
      · exact ⟨left, right, rfl⟩

/-! ### Texts made of lines -/

/-- The text whose lines, each ended by a line feed, are given. -/
def ofLines (lines : List (List Char)) : List Char :=
  lines.flatMap (· ++ ['\n'])

@[simp] theorem ofLines_nil : ofLines [] = [] :=
  rfl

@[simp] theorem ofLines_cons (line : List Char) (lines : List (List Char)) :
    ofLines (line :: lines) = line ++ '\n' :: ofLines lines := by
  simp [ofLines]

@[simp] theorem ofLines_append (lines more : List (List Char)) :
    ofLines (lines ++ more) = ofLines lines ++ ofLines more :=
  List.flatMap_append

theorem pieces_ofLines {lines : List (List Char)} (h : ∀ line ∈ lines, '\n' ∉ line) :
    pieces (ofLines lines) = lines ++ [[]] := by
  induction lines with
  | nil => rfl
  | cons line lines ih =>
    rw [ofLines_cons, pieces_append_of_not_mem (h line (by simp)), pieces_newline,
      ih fun l hl => h l (by simp [hl])]
    simp

theorem startsFrom_of_not_mem {cs : List Char} (h : '\n' ∉ cs) (offset : Nat) :
    startsFrom offset cs = [] := by
  rw [← List.length_eq_zero_iff, length_startsFrom, List.count_eq_zero]
  exact h

theorem count_ofLines {lines : List (List Char)} (h : ∀ line ∈ lines, '\n' ∉ line) :
    (ofLines lines).count '\n' = lines.length := by
  induction lines with
  | nil => rfl
  | cons line lines ih =>
    rw [ofLines_cons, List.count_append, List.count_cons_self, ih fun l hl => h l (by simp [hl]),
      List.count_eq_zero.2 (h line (by simp)), List.length_cons, Nat.zero_add]

/-- A line starts where the lines before it end. -/
theorem LineIndex.lineStart?_ofLines {before : List (List Char)} (h : ∀ line ∈ before, '\n' ∉ line)
    (rest : List Char) :
    (ofText (ofLines before ++ rest)).lineStart? before.length = some (size (ofLines before)) := by
  have hstarts : ∀ offset, (offset :: startsFrom offset (ofLines before ++ rest))[before.length]? =
      some (offset + size (ofLines before)) := by
    induction before with
    | nil => simp
    | cons line before ih =>
      intro offset
      have hline := startsFrom_of_not_mem (h line (by simp)) offset
      have hnewline : startsFrom (offset + size line) ('\n' :: (ofLines before ++ rest)) =
          (offset + size line + 1) :: startsFrom (offset + size line + 1)
          (ofLines before ++ rest) := by
        rw [startsFrom]
        rfl
      rw [ofLines_cons, List.append_assoc, startsFrom_append, hline, List.nil_append,
        List.cons_append, hnewline, List.length_cons, List.getElem?_cons_succ,
        ih fun l hl => h l (by simp [hl])]
      have hsize : size ('\n' :: ofLines before) = 1 + size (ofLines before) := size_cons _ _
      rw [size_append, hsize]
      congr 1
      omega
  simpa [lineStart?, ofText] using hstarts 0

end CodeSurvey.Text
