import CodeSurvey.Span
import Mathlib.Data.Nat.Find

/-!
# Spans by indentation

By indentation a function covers its signature, which goes on while more parentheses have been
opened than closed, and the deeper lines after it, up to the first line that is not deeper. Blank
lines end no body, but none of them is the last line of one.
-/
namespace CodeSurvey.LineSpan

variable {lines : List (List Char)} {line : List Char} {start i j k : Nat}

/-! ### Parts of a text -/

/-- The lines from `i` on up to `j`, without the latter. -/
def between (lines : List (List Char)) (i j : Nat) : List (List Char) :=
  (lines.drop i).take (j - i)

theorem between_append_drop (h : i ≤ j) (lines : List (List Char)) :
    between lines i j ++ lines.drop j = lines.drop i := by
  have hdrop : lines.drop j = (lines.drop i).drop (j - i) := by
    rw [List.drop_drop]
    congr 1
    omega
  rw [between, hdrop, List.take_append_drop]

theorem drop_eq_cons (h : lines[i]? = some line) : lines.drop i = line :: lines.drop (i + 1) := by
  obtain ⟨hlt, rfl⟩ := List.getElem?_eq_some_iff.1 h
  exact List.drop_eq_getElem_cons hlt

theorem between_eq_cons (h : lines[i]? = some line) (hij : i < j) :
    between lines i j = line :: between lines (i + 1) j := by
  have hcount : j - i = j - (i + 1) + 1 := by omega
  rw [between, drop_eq_cons h, hcount, List.take_succ_cons, between]

theorem between_succ (h : lines[j]? = some line) (hij : i ≤ j) :
    between lines i (j + 1) = between lines i j ++ [line] := by
  have hcount : j + 1 - i = j - i + 1 := by omega
  rw [between, hcount, List.take_add_one, List.getElem?_drop, Nat.add_sub_cancel' hij, h, between]
  rfl

theorem length_between (h : j ≤ lines.length) : (between lines i j).length = j - i := by
  rw [between, List.length_take, List.length_drop]
  omega

theorem mem_between : line ∈ between lines i j ↔ ∃ m, i ≤ m ∧ m < j ∧ lines[m]? = some line := by
  rw [between, List.mem_iff_getElem?]
  simp only [List.getElem?_take, List.getElem?_drop]
  constructor
  · rintro ⟨n, hn⟩
    split_ifs at hn with hlt
    exact ⟨i + n, by omega, by omega, hn⟩
  · rintro ⟨m, him, hmj, hm⟩
    refine ⟨m - i, ?_⟩
    rw [if_pos (by omega), Nat.add_sub_cancel' him, hm]

theorem between_subset (h : j ≤ k) : between lines i j ⊆ between lines i k := by
  intro line hmem
  obtain ⟨m, him, hmj, hm⟩ := mem_between.1 hmem
  exact mem_between.2 ⟨m, him, by omega, hm⟩

/-- How many times more often than `b` a text has `a`. -/
def excess (a b : Char) (cs : List Char) : Int :=
  cs.count a - cs.count b

@[simp] theorem excess_nil (a b : Char) : excess a b [] = 0 :=
  rfl

theorem excess_append (a b : Char) (cs ds : List Char) :
    excess a b (cs ++ ds) = excess a b cs + excess a b ds := by
  simp only [excess, List.count_append]
  omega

theorem excess_cons {a b : Char} (h : a ≠ b) (c : Char) (cs : List Char) :
    excess a b (c :: cs) = (if c = a then 1 else if c = b then -1 else 0) + excess a b cs := by
  simp only [excess, List.count_cons, beq_iff_eq]
  split_ifs with ha hb hb
  · exact absurd (ha.symm.trans hb) h
  all_goals omega

theorem parenBalance_eq_excess (cs : List Char) : parenBalance cs = excess '(' ')' cs := by
  have hfold : ∀ n : Int, cs.foldl (fun n c => if c == '(' then n +
    1 else if c == ')' then n - 1 else n) n =
      n + excess '(' ')' cs := by
    induction cs with
    | nil => simp
    | cons c cs ih =>
      intro n
      rw [List.foldl_cons, ih, excess_cons (by decide)]
      simp only [beq_iff_eq]
      split_ifs <;> omega
  rw [parenBalance, hfold, Int.zero_add]

theorem parenBalance_call {front params rest : List Char} (hfront : ∀ c ∈ front, c ≠ '(' ∧ c ≠ ')')
    (hparams : ∀ c ∈ params, c ≠ '(' ∧ c ≠ ')') (hrest : ∀ c ∈ rest, c ≠ '(' ∧ c ≠ ')') :
    parenBalance (front ++ '(' :: (params ++ ')' :: rest)) = 0 := by
  have hnone : ∀ cs : List Char, (∀ c ∈ cs, c ≠ '(' ∧ c ≠ ')') → excess '(' ')' cs = 0 := by
    intro cs h
    rw [excess, List.count_eq_zero.2 fun hmem => (h _ hmem).1 rfl,
      List.count_eq_zero.2 fun hmem => (h _ hmem).2 rfl]
    rfl
  rw [parenBalance_eq_excess, excess_append, excess_cons (by decide), excess_append,
    excess_cons (by decide), hnone front hfront, hnone params hparams, hnone rest hrest]
  rfl

/-- Opening parentheses less closing ones on the lines from `start` to `j`. -/
def parensThrough (lines : List (List Char)) (start j : Nat) : Int :=
  excess '(' ')' (between lines start (j + 1)).flatten

theorem parensThrough_eq (h : lines[start]? = some line) (hj : start ≤ j) :
    parensThrough lines start j = parenBalance line +
      excess '(' ')' (between lines (start + 1) (j + 1)).flatten := by
  rw [parensThrough, between_eq_cons h (by omega), List.flatten_cons, excess_append,
    parenBalance_eq_excess]

theorem parensThrough_succ (h : lines[j]? = some line) (hj : start ≤ j) :
    parensThrough lines start j = excess '(' ')' (between lines start j).flatten +
      excess '(' ')' line := by
  rw [parensThrough, between_succ h hj, List.flatten_append, excess_append, List.flatten_singleton]

/-! ### The walk -/

variable {base : Nat} {parens : Int} {last : Nat} {rest : List (List Char)}

/-- A line that a body has or that stands between its lines. -/
def InBody (base : Nat) (line : List Char) : Prop :=
  Text.isBlankLine line = true ∨ base < indentWidth line

/-- Lines belong to the signature while parentheses are open in front of them. -/
theorem indentedEnd_signature {signature : List (List Char)}
    (h : ∀ n < signature.length, 0 < parens + excess '(' ')' (signature.take n).flatten) :
    indentedEnd base parens (last + 1) last (signature ++ rest) =
      indentedEnd base (parens + excess '(' ')' signature.flatten) (last + signature.length + 1)
        (last + signature.length) rest := by
  induction signature generalizing parens last with
  | nil => simp
  | cons line signature ih =>
    have hopen : 0 < parens := by simpa using h 0 (by simp)
    rw [List.cons_append, indentedEnd, if_pos hopen, parenBalance_eq_excess, ih, List.flatten_cons,
      excess_append, List.length_cons]
    · congr 1 <;> omega
    · intro n hn
      have hnext := h (n + 1) (by simpa using hn)
      rw [List.take_succ_cons, List.flatten_cons, excess_append] at hnext
      omega

/-- Whatever stands in a body, up to a line that is not blank the body goes. -/
theorem indentedEnd_body {front : List (List Char)} (hparens : parens ≤ 0)
    (hfront : ∀ l ∈ front, InBody base l) (hblank : Text.isBlankLine line = false)
    (hdeeper : base < indentWidth line) (j last : Nat) (rest : List (List Char)) :
    indentedEnd base parens j last (front ++ line :: rest) =
      indentedEnd base parens (j + front.length + 1) (j + front.length) rest := by
  have hclosed : ¬0 < parens := by omega
  induction front generalizing j last with
  | nil =>
    rw [List.nil_append, indentedEnd, if_neg hclosed, hblank, if_neg (by decide), if_neg (by omega)]
    rfl
  | cons l front ih =>
    obtain ⟨hl, hfront⟩ := List.forall_mem_cons.1 hfront
    have hnext : ∀ last, indentedEnd base parens (j + 1) last (front ++ line :: rest) =
        indentedEnd base parens (j + (l :: front).length + 1) (j + (l :: front).length) rest := by
      intro last
      rw [ih hfront, List.length_cons]
      congr 1 <;> omega
    rw [List.cons_append, indentedEnd, if_neg hclosed, hnext, hnext]
    rcases hl with hl | hl
    · rw [if_pos hl]
    · rw [if_neg (Nat.not_le.2 hl), ite_self]

theorem indentedEnd_blanks {blanks : List (List Char)} (hparens : parens ≤ 0)
    (hblanks : ∀ l ∈ blanks, Text.isBlankLine l = true) (j last : Nat) (rest : List (List Char)) :
    indentedEnd base parens j last (blanks ++ rest) =
      indentedEnd base parens (j + blanks.length) last rest := by
  induction blanks generalizing j with
  | nil => rfl
  | cons l blanks ih =>
    obtain ⟨hl, hblanks⟩ := List.forall_mem_cons.1 hblanks
    rw [List.cons_append, indentedEnd, if_neg (by omega), if_pos hl, ih hblanks, List.length_cons]
    congr 1
    omega

/-- A line outside of the body ends it, and so does the end of the text. -/
theorem indentedEnd_stop (hparens : parens ≤ 0) (h : ∀ l ∈ rest.head?, ¬InBody base l)
    (j last : Nat) :
    indentedEnd base parens j last rest = last := by
  cases rest with
  | nil => rfl
  | cons l rest =>
    obtain ⟨hblank, hdeeper⟩ := not_or.1 (h l rfl)
    rw [indentedEnd, if_neg (by omega), if_neg hblank, if_pos (by omega)]

theorem byIndentation?_append {before body rest : List (List Char)} {line : List Char}
    (hparens : parenBalance line = 0)
    (hbody : ∀ l ∈ body, Text.isBlankLine l = false ∧ indentWidth line < indentWidth l)
    (hrest : ∀ l ∈ rest.head?, Text.isBlankLine l = false ∧ indentWidth l ≤ indentWidth line) :
    byIndentation? (before ++ (line :: body ++ (rest ++ [[]]))) before.length =
      some ⟨before.length, before.length + body.length⟩ := by
  have hstop : ∀ j last, indentedEnd (indentWidth line) 0 j last (rest ++ [[]]) = last := by
    intro j last
    cases rest with
    | nil => rfl
    | cons l rest =>
      obtain ⟨hblank, hwidth⟩ := hrest l rfl
      refine indentedEnd_stop (Int.le_refl 0) ?_ j last
      rintro _ ⟨⟩
      exact not_or.2 ⟨by simp [hblank], by omega⟩
  rw [byIndentation?, List.drop_left, List.cons_append]
  dsimp only
  rw [hparens]
  rcases List.eq_nil_or_concat body with rfl | ⟨front, l, rfl⟩
  · rw [List.nil_append, hstop]
    rfl
  · rw [List.concat_eq_append] at hbody ⊢
    obtain ⟨hblank, hdeeper⟩ := hbody l (by simp)
    have hfront : ∀ m ∈ front, InBody (indentWidth line) m :=
      fun m hm => .inr (hbody m (by simp [hm])).2
    rw [List.append_assoc, List.singleton_append,
      indentedEnd_body (Int.le_refl 0) hfront hblank hdeeper, hstop, List.length_append,
      List.length_singleton]
    congr 2
    omega

/-! ### What the walk finds -/

/-- The signature of a declaration on line `start` ends on line `k`: on the first line by which as
many parentheses have been closed as opened, or on the last line of all. -/
structure SignatureEnds (lines : List (List Char)) (start k : Nat) : Prop where
  start_le : start ≤ k
  lt_length : k < lines.length
  open_before : ∀ j, start ≤ j → j < k → 0 < parensThrough lines start j
  closed : parensThrough lines start k ≤ 0 ∨ k + 1 = lines.length

/-- The lines behind line `k` up to `stop` are the longest run of lines that are blank or deeper
than `base`, and `last` is the last of them that is not blank, or `k` if there is none. -/
structure BodyEnds (lines : List (List Char)) (base k stop last : Nat) : Prop where
  lt_stop : k < stop
  stop_le : stop ≤ lines.length
  inBody : ∀ line ∈ between lines (k + 1) stop, InBody base line
  maximal : ∀ line ∈ lines[stop]?, ¬InBody base line
  le_last : k ≤ last
  last_lt : last < stop
  last_eq : last = k ∨ ∃ line ∈ lines[last]?, Text.isBlankLine line = false
  blank : ∀ line ∈ between lines (last + 1) stop, Text.isBlankLine line = true

theorem exists_signatureEnds (h : start < lines.length) : ∃ k, SignatureEnds lines start k := by
  classical
  have hexists : ∃ k, start ≤ k ∧ (parensThrough lines start k ≤ 0 ∨ k + 1 = lines.length) :=
    ⟨lines.length - 1, by omega, .inr (by omega)⟩
  have hle := Nat.find_min' hexists (m := lines.length - 1) ⟨by omega, .inr (by omega)⟩
  refine ⟨Nat.find hexists, (Nat.find_spec hexists).1, by omega, ?_, (Nat.find_spec hexists).2⟩
  intro j hstart hj
  have hnot := Nat.find_min hexists hj
  rw [not_and_or, not_or] at hnot
  rcases hnot with hnot | hnot
  · exact absurd hstart hnot
  · omega

/-- Lines that are blank or deeper end somewhere. -/
theorem exists_run (base : Nat) (h : k < lines.length) : ∃ stop, k < stop ∧ stop ≤ lines.length ∧
    (∀ line ∈ between lines (k + 1) stop, InBody base line) ∧
    ∀ line ∈ lines[stop]?, ¬InBody base line := by
  classical
  have hexists : ∃ stop, k < stop ∧ ∀ line ∈ lines[stop]?, ¬InBody base line :=
    ⟨lines.length, h, by simp⟩
  obtain ⟨hstop, hmaximal⟩ := Nat.find_spec hexists
  refine ⟨Nat.find hexists, hstop, Nat.find_min' hexists ⟨h, by simp⟩, ?_, hmaximal⟩
  intro line hline
  obtain ⟨m, hkm, hm, hget⟩ := mem_between.1 hline
  by_contra hnot
  refine Nat.find_min hexists hm ⟨hkm, ?_⟩
  intro l hl
  rw [hget, Option.mem_some_iff] at hl
  rwa [← hl]

theorem exists_greatest {P : Nat → Prop} (hk : P k) (h : k < j) :
    ∃ m, k ≤ m ∧ m < j ∧ P m ∧ ∀ n, m < n → n < j → ¬P n := by
  classical
  have hle : k ≤ j - 1 := by omega
  have hbound := Nat.findGreatest_le (P := P) (j - 1)
  refine ⟨Nat.findGreatest P (j - 1), Nat.le_findGreatest hle hk, by omega,
    Nat.findGreatest_spec hle hk, ?_⟩
  intro n hgreater hn
  exact Nat.findGreatest_is_greatest hgreater (by omega)

theorem exists_bodyEnds (base : Nat) (h : k < lines.length) :
    ∃ stop last, BodyEnds lines base k stop last := by
  obtain ⟨stop, hstop, hle, hinBody, hmaximal⟩ := exists_run base h
  obtain ⟨last, hlast, hlt, hspec, hgreatest⟩ :=
    exists_greatest (P := fun m => m = k ∨ ∃ line ∈ lines[m]?, Text.isBlankLine line = false)
      (.inl rfl) hstop
  refine ⟨stop, last, hstop, hle, hinBody, hmaximal, hlast, hlt, hspec, ?_⟩
  intro line hline
  obtain ⟨m, hlast, hm, hget⟩ := mem_between.1 hline
  by_contra hnot
  exact hgreatest m hlast hm (.inr ⟨line, hget, by simpa using hnot⟩)

variable {decl : List Char} {stop : Nat}

/-- Behind the signature the walk goes on from its last line. -/
theorem byIndentation?_of_signatureEnds (hdecl : lines[start]? = some decl)
    (h : SignatureEnds lines start k) :
    byIndentation? lines start = some ⟨start,
      indentedEnd (indentWidth decl) (parensThrough lines start k) (k + 1) k
      (lines.drop (k + 1))⟩ := by
  have hstart := h.start_le
  have hlength : (between lines (start + 1) (k + 1)).length = k - start := by
    rw [length_between h.lt_length]
    omega
  have hopen : ∀ n < (between lines (start + 1) (k + 1)).length,
      0 < parenBalance decl + excess '(' ')'
        ((between lines (start + 1) (k + 1)).take n).flatten := by
    intro n hn
    have htake : (between lines (start + 1) (k + 1)).take n =
        between lines (start + 1) (start + n + 1) := by
      rw [between, between, List.take_take]
      congr 1
      omega
    rw [htake, ← parensThrough_eq hdecl (by omega)]
    exact h.open_before (start + n) (by omega) (by omega)
  rw [byIndentation?, drop_eq_cons hdecl]
  dsimp only
  rw [← between_append_drop (Nat.add_le_add_right hstart 1) lines, indentedEnd_signature hopen,
    ← parensThrough_eq hdecl hstart, hlength, Nat.add_sub_cancel' hstart]

theorem indentedEnd_of_bodyEnds (h : BodyEnds lines base k stop last) (hparens : parens ≤ 0) :
    indentedEnd base parens (k + 1) k (lines.drop (k + 1)) = last := by
  have hlt := h.last_lt
  have hstop : ∀ j m, indentedEnd base parens j m (lines.drop (last + 1)) = m := by
    intro j m
    rw [← between_append_drop h.last_lt lines, indentedEnd_blanks hparens h.blank,
      indentedEnd_stop hparens]
    rw [List.head?_drop]
    exact h.maximal
  rcases h.last_eq with hlast | ⟨line, hline, hblank⟩
  · rw [← hlast, hstop]
  by_cases hlast : last = k
  · rw [← hlast, hstop]
  have hle := h.le_last
  have hfront : ∀ l ∈ between lines (k + 1) last, InBody base l := fun l hl =>
    h.inBody l (between_subset (Nat.le_of_lt hlt) hl)
  have hdeeper : base < indentWidth line :=
    (h.inBody line (mem_between.2 ⟨last, by omega, hlt, hline⟩)).resolve_left (by simp [hblank])
  have hlength : (between lines (k + 1) last).length = last - (k + 1) := by
    rw [length_between]
    exact Nat.le_of_lt (Nat.lt_of_lt_of_le hlt h.stop_le)
  rw [← between_append_drop (show k + 1 ≤ last by omega) lines, drop_eq_cons hline,
    indentedEnd_body hparens hfront hblank hdeeper, hstop, hlength]
  omega

theorem byIndentation?_of_bodyEnds (hdecl : lines[start]? = some decl)
    (hsignature : SignatureEnds lines start k)
    (hbody : BodyEnds lines (indentWidth decl) k stop last) :
      byIndentation? lines start = some ⟨start, last⟩ := by
  rw [byIndentation?_of_signatureEnds hdecl hsignature]
  rcases hsignature.closed with hclosed | hend
  · rw [indentedEnd_of_bodyEnds hbody hclosed]
  · have hlast : last = k := by
      have hle := hbody.le_last
      have hlt := hbody.last_lt
      have hstop := hbody.stop_le
      omega
    rw [hend, List.drop_length, hlast]
    rfl

/-- The first line behind a body that is not blank is not deeper. -/
theorem BodyEnds.not_deeper (h : BodyEnds lines base k stop last) (hj : last < j)
    (hbetween : ∀ l ∈ between lines (last + 1) j, Text.isBlankLine l = true)
    (hline : lines[j]? = some line) (hblank : Text.isBlankLine line = false) :
      indentWidth line ≤ base := by
  rcases Nat.lt_trichotomy j stop with hlt | rfl | hgt
  · have hinside := h.blank line (mem_between.2 ⟨j, hj, hlt, hline⟩)
    rw [hblank] at hinside
    cases hinside
  · exact Nat.not_lt.1 (not_or.1 (h.maximal line hline)).2
  · obtain ⟨hlength, -⟩ := List.getElem?_eq_some_iff.1 hline
    obtain ⟨l, hl⟩ : ∃ l, lines[stop]? = some l :=
      ⟨lines[stop], List.getElem?_eq_getElem (by omega)⟩
    have hoff := not_or.1 (h.maximal l hl)
    exact absurd (hbetween l (mem_between.2 ⟨stop, h.last_lt, hgt, hl⟩)) hoff.1

theorem byIndentation?_eq_none_iff : byIndentation? lines start = none ↔ lines.length ≤ start := by
  rw [← List.drop_eq_nil_iff, byIndentation?]
  cases lines.drop start <;> simp

theorem byIndentation?_eq_some_iff {span : LineSpan} : byIndentation? lines start = some span ↔
    span.first = start ∧ ∃ decl ∈ lines[start]?, ∃ k stop,
      SignatureEnds lines start k ∧ BodyEnds lines (indentWidth decl) k stop span.last := by
  constructor
  · intro hspan
    have hlt : start < lines.length := by
      by_contra hnot
      rw [byIndentation?_eq_none_iff.2 (Nat.not_lt.1 hnot)] at hspan
      cases hspan
    have hdecl := List.getElem?_eq_getElem hlt
    obtain ⟨k, hsignature⟩ := exists_signatureEnds hlt
    obtain ⟨stop, last, hbody⟩ := exists_bodyEnds (indentWidth lines[start]) hsignature.lt_length
    rw [byIndentation?_of_bodyEnds hdecl hsignature hbody, Option.some_inj] at hspan
    subst hspan
    exact ⟨rfl, _, hdecl, k, stop, hsignature, hbody⟩
  · rintro ⟨rfl, decl, hdecl, k, stop, hsignature, hbody⟩
    exact byIndentation?_of_bodyEnds hdecl hsignature hbody

/-- By indentation every line has a span. It goes from the line to the last one of the body behind
the signature that is not blank, or to the end of the signature, and the first line behind it that
is not blank is not deeper. -/
theorem byIndentation?_characterised (lines : List (List Char)) (start : Nat) :
    (byIndentation? lines start = none ↔ lines.length ≤ start) ∧
    (∀ span, byIndentation? lines start = some span ↔
      span.first = start ∧ ∃ decl ∈ lines[start]?, ∃ k stop, SignatureEnds lines start k ∧
      BodyEnds lines (indentWidth decl) k stop span.last) ∧
    ∀ span, byIndentation? lines start = some span → start ≤ span.last ∧ span.last < lines.length ∧
      ∀ decl ∈ lines[start]?, ∀ j > span.last,
        (∀ l ∈ between lines (span.last + 1) j, Text.isBlankLine l = true) →
        ∀ line ∈ lines[j]?, Text.isBlankLine line = false →
        indentWidth line ≤ indentWidth decl := by
  refine ⟨byIndentation?_eq_none_iff, fun span => byIndentation?_eq_some_iff, ?_⟩
  intro span hspan
  obtain ⟨-, decl, hdecl, k, stop, hsignature, hbody⟩ := byIndentation?_eq_some_iff.1 hspan
  refine ⟨Nat.le_trans hsignature.start_le hbody.le_last,
    Nat.lt_of_lt_of_le hbody.last_lt hbody.stop_le, ?_⟩
  intro other hother j hj hbetween line hline hblank
  obtain rfl := Option.mem_unique hother hdecl
  exact hbody.not_deeper hj hbetween hline hblank

end CodeSurvey.LineSpan
