import CodeSurvey.Parameter
import CodeSurvey.Proofs.Text.LineIndex
import CodeSurvey.Proofs.Text.Offset
import Mathlib.Data.List.DropRight

/-!
# Texts cut in two

What is found behind a cut does not depend on what stands in front of it, but for the offsets and
the number of the line. And a text can be cut at a character without regard to a part that does not
have it.
-/
namespace CodeSurvey

namespace Text

theorem exists_pieces (cs : List Char) : ∃ line rest, pieces cs = line :: rest :=
  List.exists_cons_of_ne_nil (List.splitOn_ne_nil '\n' cs)

theorem pieces_of_not_mem {cs : List Char} (h : '\n' ∉ cs) : pieces cs = [cs] :=
  List.splitOn_eq_singleton h

theorem pieces_line {line : List Char} (h : '\n' ∉ line) (cs : List Char) :
    pieces (line ++ '\n' :: cs) = line :: pieces cs := by
  rw [pieces_append_of_not_mem h, pieces_newline, List.modifyHead_cons, List.append_nil]

theorem intercalate_singleton (line : List Char) : ['\n'].intercalate [line] = line := by
  simp [List.intercalate]

theorem intercalate_pieces_line {line : List Char} (h : '\n' ∉ line) (cs : List Char) :
    ['\n'].intercalate (line :: pieces cs) = line ++ '\n' :: cs := by
  rw [← pieces_line h]
  exact List.intercalate_splitOn '\n'

theorem exists_first_line {cs : List Char} (h : '\n' ∈ cs) :
    ∃ line rest, cs = line ++ '\n' :: rest ∧ '\n' ∉ line :=
  List.eq_append_cons_of_mem h

/-- A proof about a text goes from the lines below the first one to all of them. -/
theorem line_induction {P : List Char → Prop} (last : ∀ line, '\n' ∉ line → P line)
    (next : ∀ line rest, '\n' ∉ line → P rest → P (line ++ '\n' :: rest)) (cs : List Char) :
      P cs := by
  generalize hn : cs.length = n
  induction n using Nat.strongRecOn generalizing cs with
  | _ n ih =>
    by_cases hmem : '\n' ∈ cs
    · obtain ⟨line, rest, rfl, hline⟩ := exists_first_line hmem
      refine next line rest hline (ih rest.length ?_ rest rfl)
      rw [List.length_append, List.length_cons] at hn
      omega
    · exact last cs hmem

theorem takeWhile_append_stop {accepts : Char → Bool} {c : Char} (hc : accepts c = false)
    (cs rest : List Char) :
    (cs ++ c :: rest).takeWhile accepts = cs.takeWhile accepts := by
  induction cs with
  | nil => rw [List.nil_append, List.takeWhile_cons_of_neg (by simp [hc]), List.takeWhile_nil]
  | cons d cs ih => rw [List.cons_append, List.takeWhile_cons, List.takeWhile_cons, ih]

/-- What follows the last line feed. -/
def lastLine (cs : List Char) : List Char :=
  cs.rtakeWhile (· != '\n')

theorem lastLine_of_not_mem {cs : List Char} (h : '\n' ∉ cs) : lastLine cs = cs := by
  rw [lastLine, List.rtakeWhile_eq_self_iff]
  intro c hc
  simpa using ne_of_mem_of_not_mem hc h

theorem lastLine_newline (cs rest : List Char) : lastLine (cs ++ '\n' :: rest) = lastLine rest := by
  rw [lastLine, lastLine, List.rtakeWhile, List.rtakeWhile, List.reverse_append, List.reverse_cons,
    List.append_assoc, List.singleton_append, takeWhile_append_stop rfl]

theorem lines_of_not_mem {cs : List Char} (h : '\n' ∉ cs) :
    lines cs = if cs.isEmpty then [] else [cs] := by
  rw [lines, pieces_of_not_mem h]
  rfl

theorem lines_line {line : List Char} (h : '\n' ∉ line) (cs : List Char) :
    lines (line ++ '\n' :: cs) = dropTail ['\r'] line :: lines cs := by
  rw [lines, pieces_line h, lines]
  obtain ⟨piece, more, hpieces⟩ := exists_pieces cs
  rw [hpieces]
  rfl

theorem tail_lines_append {start : List Char} (h : '\n' ∉ start) (cs : List Char) :
    (lines (start ++ cs)).tail = (lines cs).tail := by
  have hone : ∀ {cs : List Char}, '\n' ∉ cs → (lines cs).tail = [] := by
    intro cs hcs
    rw [lines_of_not_mem hcs]
    split <;> rfl
  by_cases hcs : '\n' ∈ cs
  · obtain ⟨line, rest, rfl, hline⟩ := exists_first_line hcs
    have hfirst : '\n' ∉ start ++ line := by simp [h, hline]
    rw [← List.append_assoc, lines_line hfirst, lines_line hline, List.tail_cons, List.tail_cons]
  · rw [hone hcs, hone (by simp [h, hcs])]

theorem dropTail_of_not_mem {c : Char} {cs : List Char} (h : c ∉ cs) : dropTail [c] cs = cs := by
  rcases List.eq_nil_or_concat cs with rfl | ⟨cs, d, rfl⟩
  · rfl
  · have hd : c ≠ d := by
      rintro rfl
      simp at h
    simp [dropTail, stripEnd?, stripStart?, hd]

/-- A carriage return is dropped only at the end. -/
theorem exists_dropTail_append {c : Char} (hc : c ≠ '\r') (start cs : List Char) :
    ∃ rest, dropTail ['\r'] (start ++ c :: cs) = start ++ c :: rest := by
  rcases List.eq_nil_or_concat cs with rfl | ⟨cs, d, rfl⟩
  · exact ⟨[], by simp [dropTail, stripEnd?, stripStart?, Ne.symm hc]⟩
  · by_cases hd : d = '\r'
    · exact ⟨cs, by simp [dropTail, stripEnd?, stripStart?, hd]⟩
    · exact ⟨cs ++ [d], by simp [dropTail, stripEnd?, stripStart?, Ne.symm hd]⟩

/-- The first line of a text is not changed in front of a character that ends no line. -/
theorem exists_lines_append {c : Char} (hreturn : c ≠ '\r') (hnewline : c ≠ '\n')
    {start : List Char} (hstart : '\n' ∉ start) (cs : List Char) :
    ∃ rest, lines (start ++ c :: cs) = (start ++ c :: rest) :: (lines (c :: cs)).tail := by
  by_cases hcs : '\n' ∈ cs
  · obtain ⟨line, more, rfl, hline⟩ := exists_first_line hcs
    obtain ⟨rest, hrest⟩ := exists_dropTail_append hreturn start line
    have hfirst : '\n' ∉ start ++ c :: line := by simp [hstart, hline, Ne.symm hnewline]
    have hlater : '\n' ∉ c :: line := by simp [hline, Ne.symm hnewline]
    refine ⟨rest, ?_⟩
    rw [← List.cons_append, ← List.append_assoc, lines_line hfirst, hrest, lines_line hlater,
      List.tail_cons]
  · refine ⟨cs, ?_⟩
    rw [lines_of_not_mem (by simp [hstart, hcs, Ne.symm hnewline]),
      lines_of_not_mem (by simp [hcs, Ne.symm hnewline]), if_neg (by simp), if_neg (by simp),
      List.tail_cons]

theorem dropBytes?_append_add (before cs : List Char) (n : Nat) :
    dropBytes? (size before + n) (before ++ cs) = dropBytes? n cs := by
  induction before with
  | nil => rw [size_nil, Nat.zero_add, List.nil_append]
  | cons c before ih =>
    have hc := c.utf8Size_pos
    have hsucc : size (c :: before) + n = (c.utf8Size - 1 + size before + n) + 1 := by
      rw [size_cons]
      omega
    rw [hsucc, List.cons_append, dropBytes?, if_pos (by omega), ← ih]
    · congr 1
      omega
    · omega

theorem dropBytes_append_add (before cs : List Char) (n : Nat) :
    dropBytes (size before + n) (before ++ cs) = dropBytes n cs := by
  induction before with
  | nil => rw [size_nil, Nat.zero_add, List.nil_append]
  | cons c before ih =>
    have hc := c.utf8Size_pos
    rw [size_cons, List.cons_append, dropBytes, if_neg (by omega), ← ih]
    congr 1
    omega

theorem slice_append_add (before cs : List Char) (start stop : Nat) :
    slice (before ++ cs) (size before + start) (size before + stop) = slice cs start stop := by
  rw [slice, dropBytes_append_add, Nat.add_sub_add_left, slice]

theorem startsFrom_add (n offset : Nat) (cs : List Char) :
    startsFrom (n + offset) cs = (startsFrom offset cs).map (n + ·) := by
  induction cs generalizing offset with
  | nil => rfl
  | cons c cs ih =>
    simp only [startsFrom, Nat.add_assoc, ih]
    split <;> simp

theorem LineIndex.lineOf_append_add (before cs : List Char) (offset : Nat) :
    (ofText (before ++ cs)).lineOf (size before + offset) =
      before.count '\n' + (ofText cs).lineOf offset := by
  have hbefore : (0 :: startsFrom 0 before).filter (· ≤ size before + offset) =
      0 :: startsFrom 0 before := by
    rw [List.filter_eq_self]
    rintro n (_ | ⟨_, hn⟩)
    · simp
    · have hbounds := startsFrom_bounds hn
      simp only [decide_eq_true_eq]
      omega
  have hcs : (startsFrom (size before) cs).filter (· ≤ size before + offset) =
      ((startsFrom 0 cs).filter (· ≤ offset)).map (size before + ·) := by
    rw [← Nat.add_zero (size before), startsFrom_add, List.filter_map]
    congr 1
    refine List.filter_congr fun n _ => ?_
    simp
  have hfirst : (0 :: startsFrom 0 cs).filter (· ≤ offset) =
    0 :: (startsFrom 0 cs).filter (· ≤ offset) :=
    List.filter_cons_of_pos (by simp)
  rw [lineOf, lineOf, ofText, ofText, startsFrom_append, Nat.zero_add, ← List.cons_append,
    List.filter_append, hbefore, hcs, hfirst, List.length_append, List.length_map, List.length_cons,
    List.length_cons, length_startsFrom]
  omega

end Text

/-- A character that is not in the middle part stands before or behind it. -/
theorem cut_of_not_mem {before middle after front rest : List Char} {c : Char} (hc : c ∉ middle)
    (h : before ++ (middle ++ after) = front ++ c :: rest) :
    (∃ more, before = front ++ c :: more ∧ rest = more ++ (middle ++ after)) ∨
      ∃ more, front = before ++ (middle ++ more) ∧ after = more ++ c :: rest := by
  rcases List.append_eq_append_iff.1 h with ⟨past, rfl, hpast⟩ | ⟨past, rfl, hpast⟩
  · right
    rcases List.append_eq_append_iff.1 hpast with ⟨more, rfl, rfl⟩ | ⟨more, rfl, hmore⟩
    · exact ⟨more, rfl, rfl⟩
    · cases more with
      | nil => exact ⟨[], by simp, by simpa using hmore.symm⟩
      | cons d more =>
        obtain ⟨rfl, -⟩ := List.cons.inj hmore
        exact absurd (by simp) hc
  · cases past with
    | nil =>
      right
      cases middle with
      | nil => exact ⟨[], by simp, by simpa using hpast.symm⟩
      | cons d middle =>
        obtain ⟨rfl, -⟩ := List.cons.inj hpast
        exact absurd (by simp) hc
    | cons d past =>
      obtain ⟨rfl, rfl⟩ := List.cons.inj hpast
      exact .inl ⟨past, rfl, rfl⟩

/-! ### Searches -/

/-- A search from `offset` on has found `stop` behind a part with the property. -/
def FoundBehind (Passes : List Char → Prop) (stop : Char) (offset found : Nat) (cs : List Char) :
    Prop :=
  ∃ passed rest, cs = passed ++ stop :: rest ∧ found = offset + Text.size passed ∧ Passes passed

section FoundBehind

variable {Passes : List Char → Prop} {c stop : Char} {offset found : Nat} {cs : List Char}

/-- The search goes on behind a character. -/
theorem foundBehind_cons_iff {next : Nat} (hnext : next = offset + c.utf8Size)
    (hhere : c = stop → ¬Passes []) {Later : List Char → Prop}
    (hlater : ∀ passed, Passes (c :: passed) ↔ Later passed) :
    FoundBehind Later stop next found cs ↔ FoundBehind Passes stop offset found (c :: cs) := by
  constructor
  · rintro ⟨passed, rest, rfl, hfound, hpasses⟩
    refine ⟨c :: passed, rest, rfl, ?_, (hlater passed).2 hpasses⟩
    rw [hfound, hnext, Text.size_cons, Nat.add_assoc]
  · rintro ⟨passed, rest, hcs, hfound, hpasses⟩
    cases passed with
    | nil =>
      obtain ⟨rfl, -⟩ := List.cons.inj hcs
      exact absurd hpasses (hhere rfl)
    | cons d passed =>
      obtain ⟨rfl, rfl⟩ := List.cons.inj hcs
      refine ⟨passed, rest, rfl, ?_, (hlater passed).1 hpasses⟩
      rw [hfound, hnext, Text.size_cons, Nat.add_assoc]

/-- The search ends here. -/
theorem foundBehind_here_iff (hhere : Passes []) (hlater : ∀ passed, ¬Passes (stop :: passed)) :
    FoundBehind Passes stop offset found (stop :: cs) ↔ found = offset := by
  constructor
  · rintro ⟨passed, rest, hcs, hfound, hpasses⟩
    cases passed with
    | nil => exact hfound
    | cons d passed =>
      obtain ⟨rfl, -⟩ := List.cons.inj hcs
      exact absurd hpasses (hlater passed)
  · rintro rfl
    exact ⟨[], cs, rfl, rfl, hhere⟩

/-- The search is given up here. -/
theorem not_foundBehind (hne : c ≠ stop) (hlater : ∀ passed, ¬Passes (c :: passed)) :
    ¬FoundBehind Passes stop offset found (c :: cs) := by
  rintro ⟨passed, rest, hcs, -, hpasses⟩
  cases passed with
  | nil => exact hne (List.cons.inj hcs).1
  | cons d passed =>
    obtain ⟨rfl, -⟩ := List.cons.inj hcs
    exact hlater passed hpasses

end FoundBehind

/-! ### Parentheses -/

/-- Of `depth` open parentheses the text leaves one open, and never less. -/
def Closes : Nat → List Char → Prop
  | depth, [] => depth ≤ 1
  | depth, c :: cs =>
    if c = '(' then Closes (depth + 1) cs
    else if c = ')' then 1 < depth ∧ Closes (depth - 1) cs
    else Closes depth cs

/-- What has no parentheses can be left out. -/
theorem closes_splice {middle : List Char} (hopen : '(' ∉ middle) (hclose : ')' ∉ middle)
    (depth : Nat) (before after : List Char) :
      Closes depth (before ++ (middle ++ after)) ↔ Closes depth (before ++ after) := by
  induction before generalizing depth with
  | nil =>
    induction middle with
    | nil => rfl
    | cons c middle ih =>
      rw [List.mem_cons, not_or] at hopen hclose
      rw [List.nil_append, List.cons_append, Closes, if_neg (Ne.symm hopen.1),
        if_neg (Ne.symm hclose.1)]
      exact ih hopen.2 hclose.2
  | cons c before ih => simp only [List.cons_append, Closes, ih]

theorem closeFrom_eq_some_iff {offset depth closing : Nat} {cs : List Char} :
    closeFrom offset depth cs = some closing ↔
    FoundBehind (Closes depth) ')' offset closing cs := by
  induction cs generalizing offset depth with
  | nil => simp [closeFrom, FoundBehind]
  | cons c cs ih =>
    rw [closeFrom]
    by_cases hopen : c = '('
    · subst hopen
      rw [if_pos (by rfl)]
      refine ih.trans (foundBehind_cons_iff (by rfl) (fun h => by cases h) fun inner => ?_)
      rw [Closes, if_pos rfl]
    · rw [if_neg (by simpa using hopen)]
      by_cases hclose : c = ')'
      · subst hclose
        have hcloses : ∀ inner, Closes depth (')' :: inner) ↔
            1 < depth ∧ Closes (depth - 1) inner := by
          intro inner
          rw [Closes, if_neg (by decide), if_pos rfl]
        rw [if_pos (by rfl)]
        by_cases hlast : depth ≤ 1
        · rw [if_pos hlast, foundBehind_here_iff hlast, Option.some_inj, eq_comm]
          intro inner hinner
          have hdeep := ((hcloses inner).1 hinner).1
          omega
        · have hdeep : 1 < depth := by omega
          rw [if_neg hlast]
          refine ih.trans (foundBehind_cons_iff (by rfl) (fun _ => hlast) fun inner => ?_)
          exact (hcloses inner).trans (and_iff_right hdeep)
      · rw [if_neg (by simpa using hclose)]
        refine ih.trans (foundBehind_cons_iff (by rfl) (fun h => absurd h hclose) fun inner => ?_)
        rw [Closes, if_neg hopen, if_neg hclose]

theorem matchingParen?_eq_some_iff {opening closing : Nat} {cs : List Char} :
    matchingParen? cs opening = some closing ↔
      ∃ front inner rest, cs = front ++ '(' :: (inner ++ ')' :: rest) ∧ Text.size front = opening ∧
        closing = opening + 1 + Text.size inner ∧ Closes 1 inner := by
  rw [matchingParen?]
  constructor
  · intro h
    split at h
    · rename_i rest hrest
      obtain ⟨front, rfl, hfront⟩ := Text.dropBytes?_eq_some_iff.1 hrest
      obtain ⟨inner, rest, rfl, hclosing, hinner⟩ := closeFrom_eq_some_iff.1 h
      exact ⟨front, inner, rest, rfl, hfront, hclosing, hinner⟩
    · cases h
  · rintro ⟨front, inner, rest, rfl, rfl, hclosing, hinner⟩
    rw [Text.dropBytes?_append]
    exact closeFrom_eq_some_iff.2 ⟨inner, rest, rfl, hclosing, hinner⟩

/-- A parenthesis in front of a part without parentheses is closed whether or not another such part
stands there. -/
theorem matchingParen?_splice {before middle other after : List Char} {opening : Nat}
    (hopen : '(' ∉ middle ++ other) (hclose : ')' ∉ middle ++ other)
    (hopening : opening < Text.size before) :
    (matchingParen? (before ++ (middle ++ after)) opening).isSome =
      (matchingParen? (before ++ (other ++ after)) opening).isSome := by
  have honeWay : ∀ {middle other : List Char}, '(' ∉ middle ++ other → ')' ∉ middle ++ other →
      (matchingParen? (before ++ (middle ++ after)) opening).isSome = true →
        (matchingParen? (before ++ (other ++ after)) opening).isSome = true := by
    intro middle other hopen hclose h
    rw [List.mem_append, not_or] at hopen hclose
    obtain ⟨closing, hclosing⟩ := Option.isSome_iff_exists.1 h
    obtain ⟨front, inner, rest, htext, hfront, -, hinner⟩ := matchingParen?_eq_some_iff.1 hclosing
    rw [Option.isSome_iff_exists]
    rcases cut_of_not_mem hopen.1 htext with ⟨more, rfl, hmore⟩ | ⟨more, rfl, -⟩
    · rcases cut_of_not_mem hclose.1 hmore.symm with ⟨last, rfl, -⟩ | ⟨last, rfl, rfl⟩
      · refine ⟨_, matchingParen?_eq_some_iff.2
          ⟨front, inner, last ++ (other ++ after), ?_, hfront, rfl, hinner⟩⟩
        simp
      · rw [closes_splice hopen.1 hclose.1, ← closes_splice hopen.2 hclose.2] at hinner
        refine ⟨_, matchingParen?_eq_some_iff.2
          ⟨front, more ++ (other ++ last), rest, ?_, hfront, rfl, hinner⟩⟩
        simp
    · rw [Text.size_append] at hfront
      omega
  rw [Bool.eq_iff_iff]
  refine ⟨honeWay hopen hclose, honeWay ?_ ?_⟩
  · rwa [List.mem_append, or_comm, ← List.mem_append]
  · rwa [List.mem_append, or_comm, ← List.mem_append]

theorem closeFrom_add (n offset depth : Nat) (cs : List Char) :
    closeFrom (n + offset) depth cs = (closeFrom offset depth cs).map (n + ·) := by
  induction cs generalizing offset depth with
  | nil => rfl
  | cons c cs ih =>
    simp only [closeFrom, Nat.add_assoc, ih]
    split
    · rfl
    · split
      · split <;> rfl
      · rfl

theorem matchingParen?_append_add (before cs : List Char) (opening : Nat) :
    matchingParen? (before ++ cs) (Text.size before + opening) =
      (matchingParen? cs opening).map (Text.size before + ·) := by
  rw [matchingParen?, Text.dropBytes?_append_add, matchingParen?]
  split
  · rw [Nat.add_assoc, closeFrom_add]
  · rfl

end CodeSurvey
