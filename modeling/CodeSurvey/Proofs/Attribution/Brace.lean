import CodeSurvey.Proofs.Attribution.Local
import CodeSurvey.Proofs.Mask.Splice
import CodeSurvey.Proofs.Pattern.Ending
import Mathlib.Data.List.TakeWhile

/-!
# A brace on a line of its own

The brace that ends the line of a head may go to the next line. That line is then one more line that
takes part in scopes, as deep as the head itself, and it closes the scope that the head has opened.
So what stands in the body is attributed as if it stood beside the head.
-/
namespace CodeSurvey

namespace Swift

/-! ### Heads without their brace -/

/-- Neither a type head nor a function head uses any of the ending. -/
structure Unused (ending : List Char) : Prop where
  typeHead : typeHead.Ignores ending
  functionHead : functionHead.Ignores ending

theorem unused_nil : Unused [] :=
  ⟨Pattern.ignores_nil _, Pattern.ignores_nil _⟩

theorem unused_brace {blanks : List Char} (h : ∀ c ∈ blanks, Text.isBlank c = true) :
    Unused ('\x7b' :: blanks) := by
  have hnot : ∀ c : Char, Text.isBlank c = false → c ≠ '\x7b' → c ∉ '\x7b' :: blanks := by
    intro c hc hne hmem
    rcases List.mem_cons.1 hmem with rfl | hmem
    · exact hne rfl
    · rw [h c hmem] at hc
      cases hc
  have hwords : ∀ {words : List String}, (words.all fun w => w.toList.all fun c => !('\x7b' == c)) =
      true →
      ∀ w ∈ words, ∀ c ∈ w.toList, Pattern.Stops (· == c) ('\x7b' :: blanks) := by
    intro words hall w hw c hc
    have hne := List.all_eq_true.1 (List.all_eq_true.1 hall w hw) c hc
    simpa [Pattern.Stops] using hne
  have hindent : Pattern.indent.Ignores ('\x7b' :: blanks) :=
    Pattern.ignores_lineStart.seq (Pattern.ignores_run rfl)
  have hblank : Pattern.blank.Ignores ('\x7b' :: blanks) := Pattern.ignores_run1 rfl
  have hparens : ∀ accepts : Char → Bool,
      (Pattern.seq (.seq (Pattern.one '(') (.run accepts)) (Pattern.one ')')).Ignores
      ('\x7b' :: blanks) := by
    intro accepts
    refine Pattern.Ignores.seq_assoc (.seq ?_ (.run_char accepts (hnot ')' rfl (by decide))))
    exact Pattern.ignores_char rfl
  have hangles : (Pattern.seq (.seq (Pattern.one '<') (.run (· != '>'))) (Pattern.one '>')).Ignores
      ('\x7b' :: blanks) := by
    refine Pattern.Ignores.seq_assoc (.seq ?_ (.run_char _ (hnot '>' rfl (by decide))))
    exact Pattern.ignores_char rfl
  have hattributes : (Pattern.many (.seq (.seq (.seq (Pattern.one '@') (Pattern.run1 Text.isWord))
      (Pattern.opt (.seq (.seq (Pattern.one '(') (.run (· != ')'))) (Pattern.one ')'))))
        Pattern.blank)).Ignores
        ('\x7b' :: blanks) := by
    refine .many (.seq (.seq (.seq ?_ ?_) (hparens _).opt) hblank)
    · exact Pattern.ignores_char rfl
    · exact Pattern.ignores_run1 rfl
  constructor
  · refine .seq
      (.seq (.seq (.seq (.seq hindent hattributes) (.many (.seq (.seq ?_ (.opt ?_)) hblank))) ?_)
        hblank)
      (.group (.seq ?_ ?_) "name")
    · exact Pattern.ignores_anyOf (hwords rfl)
    · exact Pattern.ignores_lit (@hwords ["(set)"] rfl "(set)" (by simp))
    · exact Pattern.ignores_anyOf (hwords rfl)
    · exact Pattern.ignores_char rfl
    · exact Pattern.ignores_run rfl
  · refine .seq
      (.seq
        (.seq
          (.seq (.seq (.seq (.seq (.seq hindent hattributes) (.many (.seq (.seq ?_ (hparens _).opt)
      hblank))) ?_) (.group (.seq ?_ ?_) "name")) ?_) hangles.opt) ?_) ?_
    · exact Pattern.ignores_anyOf (hwords rfl)
    · exact Pattern.ignores_keyword (@hwords ["func"] rfl "func" (by simp)) rfl
    · exact Pattern.ignores_char rfl
    · exact Pattern.ignores_run rfl
    · exact Pattern.ignores_run rfl
    · exact Pattern.ignores_run rfl
    · exact Pattern.ignores_char rfl

theorem typeName?_append {ending : List Char} (h : Unused ending) (line : List Char) :
    typeName? (line ++ ending) = typeName? line := by
  rw [typeName?, h.typeHead.matchHead?, typeName?]
  cases hmatch : typeHead.matchHead? line with
  | none => rfl
  | some m => simp only [Option.map_some, Option.bind_some, Pattern.Match.string_extend hmatch]

theorem name_head?_append {ending : List Char} (h : Unused ending) (rest line : List Char) :
    (head? (.plain rest) 0 (line ++ ending)).map Head.name =
      (functionHead.matchHead? line).bind fun m =>
        (matchingParen? rest (m.whole.stop.offset - 1)).map fun _ => m.string "name" := by
  rw [head?, h.functionHead.matchHead?]
  cases hmatch : functionHead.matchHead? line with
  | none => rfl
  | some m =>
    have hstart : (SourceText.plain rest).lineStart 0 + (m.extend ending).whole.stop.offset - 1 =
        m.whole.stop.offset - 1 := by
      have hzero : (SourceText.plain rest).lineStart 0 = 0 := rfl
      have hstop : (m.extend ending).whole.stop.offset = m.whole.stop.offset := rfl
      omega
    have hmasked : (SourceText.plain rest).masked = rest := rfl
    simp only [Option.map_some, Option.bind_eq_bind, Option.bind_some, hstart, hmasked,
      Pattern.Match.string_extend hmatch]
    cases matchingParen? rest (m.whole.stop.offset - 1) <;> rfl

/-- The head on a line does not depend on endings that it does not use, nor on a part without
parentheses below. -/
theorem headOn?_splice (before middle other after line : List Char) {ending last : List Char}
    (hline : Text.size line ≤ Text.size before) (hopen : '(' ∉ middle ++ other)
    (hclose : ')' ∉ middle ++ other) (hending : Unused ending) (hlast : Unused last) :
    headOn? (before ++ (middle ++ after)) (line ++ ending) =
      headOn? (before ++ (other ++ after)) (line ++ last) := by
  have hnames : (functionHead.matchHead? line).bind (fun m =>
        (matchingParen? (before ++ (middle ++ after)) (m.whole.stop.offset - 1)).map fun _ =>
          m.string "name") =
      (functionHead.matchHead? line).bind fun m =>
        (matchingParen? (before ++ (other ++ after)) (m.whole.stop.offset - 1)).map fun _ =>
          m.string "name" := by
    refine Option.bind_congr fun m hmatch => ?_
    have hstop := Pattern.one_le_stop hmatch
    have hsize := Pattern.stop_le_size hmatch
    have hsome : (matchingParen? (before ++ (middle ++ after)) (m.whole.stop.offset - 1)).isSome =
        (matchingParen? (before ++ (other ++ after)) (m.whole.stop.offset - 1)).isSome :=
      matchingParen?_splice hopen hclose (by omega)
    cases hold : matchingParen? (before ++ (middle ++ after)) (m.whole.stop.offset - 1) with
    | none =>
      rw [hold, Option.isSome_none, eq_comm, Option.isSome_eq_false_iff,
        Option.isNone_iff_eq_none] at hsome
      rw [hsome]
    | some closing =>
      rw [hold, Option.isSome_some, eq_comm, Option.isSome_iff_exists] at hsome
      obtain ⟨found, hfound⟩ := hsome
      rw [hfound]
      rfl
  rw [headOn?, headOn?, typeName?_append hending, typeName?_append hlast, name_head?_append hending,
    name_head?_append hlast, hnames]

/-- A line of white space and braces has no head. -/
theorem headOn?_eq_none {line : List Char} (h : ∀ c ∈ line, Text.isBlank c = true ∨ c = '\x7b')
    (rest : List Char) :
    headOn? rest line = none := by
  have htype : typeHead.matchHead? line = none := by
    have hneeds : typeHead.Needs fun c => c.isAlpha || c == '_' :=
      .seq_right (.group ((Pattern.needs_char _).seq_left _) "name") _
    refine hneeds.matchHead?_eq_none fun c hc => ?_
    rcases h c hc with hblank | rfl
    · have halpha : c.isAlpha = false := by
        rw [Bool.eq_false_iff]
        intro halpha
        have hword := Text.isBlank_of_isWord (Text.isWord_of_isAlpha halpha)
        rw [hblank] at hword
        cases hword
      have hne : c ≠ '_' := Text.ne_of_class hblank rfl
      simp [halpha, hne]
    · rfl
  have hfunction : functionHead.matchHead? line = none := by
    have hneeds : functionHead.Needs (· == '(') := .seq_right (Pattern.needs_char _) _
    refine hneeds.matchHead?_eq_none fun c hc => ?_
    rcases h c hc with hblank | rfl
    · have hne : c ≠ '(' := Text.ne_of_class hblank rfl
      simpa using hne
    · rfl
  rw [headOn?, typeName?, htype, head?, hfunction]
  rfl

/-! ### The lines of the two texts -/

theorem headedFrom_succ (depth number : Nat) (lines : List (List Char)) :
    headedFrom depth (number + 1) lines =
      (headedFrom depth number lines).map fun l => { l with number := l.number + 1 } := by
  induction lines generalizing depth number with
  | nil => rfl
  | cons line lines ih =>
    rw [headedFrom, ih, headedFrom, List.map_append]
    split
    · rw [List.map_nil]
    · simp only [List.map_cons, List.map_nil]

/-- What ends a line: the end of the text, or a line feed. -/
def EndsLine (rest : List Char) : Prop :=
  ∀ c ∈ rest.head?, c = '\n'

/-- The lines below a line that the given text ends. -/
def headedBelow (depth number : Nat) : List Char → List HeadedLine
  | [] => []
  | _ :: rest => headedFrom depth number (Text.pieces rest)

theorem headedFrom_line {line rest : List Char} (hline : '\n' ∉ line) (hrest : EndsLine rest)
    (depth number : Nat) :
    headedFrom depth number (Text.pieces (line ++ rest)) =
      (if Text.isBlankLine line then [] else [⟨number, depth, headOn? (line ++ rest) line⟩]) ++
        headedBelow (braceDepthAfter depth line) (number + 1) rest := by
  cases rest with
  | nil => rw [List.append_nil, headedFrom_last hline, headedBelow, List.append_nil]
  | cons c rest =>
    obtain rfl : c = '\n' := hrest c rfl
    rw [headedFrom_next hline, headedBelow]

theorem headedBelow_succ (depth number : Nat) (rest : List Char) :
    headedBelow depth (number + 1) rest =
      (headedBelow depth number rest).map fun l => { l with number := l.number + 1 } := by
  cases rest with
  | nil => rfl
  | cons c rest => exact headedFrom_succ depth number _

theorem braceDepthAfter_blanks {blanks : List Char} (h : ∀ c ∈ blanks, Text.isBlank c = true)
    (depth : Nat) :
    braceDepthAfter depth blanks = depth := by
  induction blanks generalizing depth with
  | nil => rfl
  | cons c blanks ih =>
    obtain ⟨hc, hmore⟩ := List.forall_mem_cons.1 h
    have hopen : c ≠ '\x7b' := Text.ne_of_class hc rfl
    have hclose : c ≠ '\x7d' := Text.ne_of_class hc rfl
    rw [braceDepthAfter, List.foldl_cons, if_neg (by simpa using hopen),
      if_neg (by simpa using hclose)]
    exact ih hmore depth

theorem braceDepthAfter_append (depth : Nat) (cs ds : List Char) :
    braceDepthAfter depth (cs ++ ds) = braceDepthAfter (braceDepthAfter depth cs) ds :=
  List.foldl_append

theorem braceDepthAfter_brace {blanks : List Char} (h : ∀ c ∈ blanks, Text.isBlank c = true)
    (depth : Nat) :
    braceDepthAfter depth ('\x7b' :: blanks) = depth + 1 :=
  braceDepthAfter_blanks h (depth + 1)

variable {indentation blanks rest : List Char}

theorem not_mem_newline_blanks (h : ∀ c ∈ indentation, Text.isBlank c = true) {c : Char}
    (hc : Text.isBlank c = false) :
    c ∉ [] ++ '\n' :: indentation := by
  intro hmem
  rcases List.mem_cons.1 hmem with rfl | hmem
  · cases hc
  · rw [h c hmem] at hc
    cases hc

theorem isBlankLine_brace (line blanks : List Char) :
    ¬Text.isBlankLine (line ++ '\x7b' :: blanks) = true := by
  rw [Text.isBlankLine, List.all_eq_true]
  exact fun hall => absurd (hall '\x7b' (by simp)) (by decide)

/-- The line with the brace in the two texts. -/
theorem headedFrom_brace_line (hindent : ∀ c ∈ indentation, Text.isBlank c = true)
    (hindentLine : '\n' ∉ indentation) (hblanks : ∀ c ∈ blanks, Text.isBlank c = true)
    (hblanksLine : '\n' ∉ blanks) (hrest : EndsLine rest) {line : List Char} (hline : '\n' ∉ line)
    (depth number : Nat) :
    ∃ l below, headedFrom depth number (Text.pieces (line ++ '\x7b' :: (blanks ++ rest))) =
      l :: below ∧
      l.number = number ∧ (l.head.isSome →
        headedFrom depth number (Text.pieces
          (line ++ '\n' :: (indentation ++ '\x7b' :: (blanks ++ rest)))) =
          l :: ⟨number + 1, braceDepthAfter depth line, none⟩ ::
            below.map fun l => { l with number := l.number + 1 }) := by
  have hhead : headOn? (line ++ '\x7b' :: (blanks ++ rest)) (line ++ '\x7b' :: blanks) =
      headOn? (line ++ '\n' :: (indentation ++ '\x7b' :: (blanks ++ rest))) line := by
    have hsplice := headOn?_splice line [] ('\n' :: indentation) ('\x7b' :: (blanks ++ rest)) line
      (Nat.le_refl _)
      (not_mem_newline_blanks hindent rfl) (not_mem_newline_blanks hindent rfl)
      (unused_brace hblanks) unused_nil
    rw [List.append_nil] at hsplice
    exact hsplice
  have hold : headedFrom depth number (Text.pieces (line ++ '\x7b' :: (blanks ++ rest))) =
      ⟨number, depth, headOn? (line ++ '\x7b' :: (blanks ++ rest)) (line ++ '\x7b' :: blanks)⟩ ::
        headedBelow (braceDepthAfter depth line + 1) (number + 1) rest := by
    have hsplit : line ++ '\x7b' :: (blanks ++ rest) = (line ++ '\x7b' :: blanks) ++ rest := by simp
    rw [hsplit, headedFrom_line (by simp [hline, hblanksLine]) hrest,
      if_neg (isBlankLine_brace line blanks), braceDepthAfter_append, braceDepthAfter_brace hblanks]
    rfl
  have hmoved : headedFrom (braceDepthAfter depth line) (number + 1)
        (Text.pieces (indentation ++ '\x7b' :: (blanks ++ rest))) =
      ⟨number + 1, braceDepthAfter depth line, none⟩ ::
        headedBelow (braceDepthAfter depth line + 1) (number + 1 + 1) rest := by
    have hsplit : indentation ++ '\x7b' :: (blanks ++ rest) =
        (indentation ++ '\x7b' :: blanks) ++ rest := by simp
    have hnone : headOn? ((indentation ++ '\x7b' :: blanks) ++ rest)
        (indentation ++ '\x7b' :: blanks) = none := by
      refine headOn?_eq_none (fun c hc => ?_) _
      rcases List.mem_append.1 hc with hc | hc
      · exact .inl (hindent c hc)
      · rcases List.mem_cons.1 hc with rfl | hc
        · exact .inr rfl
        · exact .inl (hblanks c hc)
    rw [hsplit, headedFrom_line (by simp [hindentLine, hblanksLine]) hrest,
      if_neg (isBlankLine_brace indentation blanks), hnone, braceDepthAfter_append,
      braceDepthAfter_blanks hindent, braceDepthAfter_brace hblanks]
    rfl
  refine ⟨_, _, hold, rfl, fun hsome => ?_⟩
  have hshown : ¬Text.isBlankLine line = true := by
    intro hblank
    rw [Text.isBlankLine, List.all_eq_true] at hblank
    rw [hhead, headOn?_eq_none fun c hc => .inl (hblank c hc)] at hsome
    cases hsome
  rw [headedFrom_next hline, if_neg hshown, hmoved, hhead, headedBelow_succ]
  rfl

/-- All lines of the two texts: there is one more line, without a head, below the line with the
brace. -/
theorem headedFrom_brace (hindent : ∀ c ∈ indentation, Text.isBlank c = true)
    (hindentLine : '\n' ∉ indentation) (hblanks : ∀ c ∈ blanks, Text.isBlank c = true)
    (hblanksLine : '\n' ∉ blanks) (hrest : EndsLine rest) (shown : List Char) (depth number : Nat) :
    ∃ above l below,
      headedFrom depth number (Text.pieces (shown ++ '\x7b' :: (blanks ++ rest))) =
        above ++ l :: below ∧
      l.number = number + shown.count '\n' ∧ (l.head.isSome →
        headedFrom depth number (Text.pieces
          (shown ++ '\n' :: (indentation ++ '\x7b' :: (blanks ++ rest)))) =
          above ++ l :: ⟨l.number + 1, braceDepthAfter depth shown, none⟩ ::
            below.map fun l => { l with number := l.number + 1 }) := by
  induction shown using Text.line_induction generalizing depth number with
  | last line hline =>
    obtain ⟨l, below, hold, hnumber, hnew⟩ :=
      headedFrom_brace_line hindent hindentLine hblanks hblanksLine hrest hline depth number
    refine ⟨[], l, below, hold, ?_, fun hsome => ?_⟩
    · rw [hnumber, List.count_eq_zero.2 hline, Nat.add_zero]
    · rw [hnew hsome, hnumber, List.nil_append]
  | next line shown hline ih =>
    obtain ⟨above, l, below, hold, hnumber, hnew⟩ := ih (braceDepthAfter depth line) (number + 1)
    have hhead : headOn? (line ++ '\n' :: (shown ++ '\x7b' :: (blanks ++ rest))) line =
        headOn? (line ++ '\n' :: (shown ++ '\n' :: (indentation ++ '\x7b' :: (blanks ++ rest))))
          line := by
      have hsplice := headOn?_splice (line ++ '\n' :: shown) [] ('\n' :: indentation)
        ('\x7b' :: (blanks ++ rest)) line
        (by simp) (not_mem_newline_blanks hindent rfl)
        (not_mem_newline_blanks hindent rfl) unused_nil unused_nil
      simpa using hsplice
    refine ⟨(if Text.isBlankLine line then []
      else [⟨number, depth, headOn? (line ++ '\n' :: (shown ++ '\x7b' :: (blanks ++ rest)))
        line⟩]) ++ above, l, below,
      ?_, ?_, fun hsome => ?_⟩
    · rw [List.append_assoc, List.cons_append, headedFrom_next hline, hold, List.append_assoc]
    · rw [hnumber, List.count_append, List.count_cons_self, List.count_eq_zero.2 hline]
      omega
    · -- a line feed opens and closes nothing
      have hline' : braceDepthAfter (braceDepthAfter depth line) ('\n' :: shown) =
          braceDepthAfter (braceDepthAfter depth line) shown := rfl
      rw [List.append_assoc, List.cons_append, headedFrom_next hline, hnew hsome, ← hhead,
        braceDepthAfter_append, hline', List.append_assoc]

end Swift

/-! ### Attribution in the two texts -/

/-- The qualified name and the scope. -/
def Declaration.attribution (d : Declaration) : String × ScopeKind :=
  (d.name, d.scope)

theorem Declaration.map_attribution (ds : List Declaration) :
    ds.map attribution = (ds.map identity).map fun a => (a.1, a.2.2) := by
  rw [List.map_map]
  rfl

/-- A line without a head among others matters if and only if it closes a scope that a later
function is attributed to. -/
theorem ScopeStack.map_attributions_insert (above below : List HeadedLine) (l : HeadedLine)
    (number depth : Nat) (renumber : Nat → Nat) :
    (empty.attributions (above ++ l :: ⟨number, depth, none⟩ ::
        below.map fun l => { l with number := renumber l.number })).map (fun a => (a.1, a.2.2)) =
      (empty.attributions (above ++ l :: below)).map (fun a => (a.1, a.2.2)) ↔
    ((above.foldl read .empty).read l).AgreeOn
    (((above.foldl read .empty).read l).enterLine depth) below := by
  have hordered := (ordered_empty.foldl_read above).read l
  have hnone : ((above.foldl read .empty).read l).attribution? ⟨number, depth, none⟩ = none := rfl
  rw [attributions_append, attributions_append, attributions, attributions, attributions, hnone,
    read_plain, Option.toList_none, List.nil_append]
  simp only [List.map_append, List.append_right_inj]
  rw [map_attributions_renumber, ← attributions_eq_iff_map, eq_comm,
    attributions_eq_iff hordered (hordered.enterLine depth)]

theorem Declaration.map_attribution_firstOfEachName {ds es : List Declaration}
    (h : ds.map attribution = es.map attribution) :
    (firstOfEachName ds).map attribution = (firstOfEachName es).map attribution := by
  rw [map_firstOfEachName fun _ => rfl, map_firstOfEachName fun _ => rfl, h]

namespace Swift

/-- The text in which a brace stands on a line of its own, below the line that it ended and as far
to the right. -/
def moveBrace (front after : List Char) : List Char :=
  front ++ '\n' :: ((Text.lastLine front).takeWhile Text.isBlank ++ '\x7b' :: after)

/-- The lines of the two texts, where the brace stands in code and nothing but white space follows
on its line. -/
theorem headedLines_moveBrace {front after : List Char}
    (hcode : Mask.modeAfter lexis .code front ('\x7b' :: after) = .code)
    (hend : Text.isBlankLine ((Mask.maskFrom lexis .code after).takeWhile (· != '\n')) = true) :
    ∃ above l below, headedLines (front ++ '\x7b' :: after) = above ++ l :: below ∧
      l.number = front.count '\n' ∧
      (l.head.isSome → headedLines (moveBrace front after) =
        above ++ l ::
          ⟨l.number + 1,
            braceDepthAfter 0 (Mask.maskBefore lexis .code front ('\x7b' :: after)), none⟩ ::
          below.map fun l => { l with number := l.number + 1 }) := by
  have hindent : ∀ c ∈ (Text.lastLine front).takeWhile Text.isBlank, Text.isBlank c = true :=
    fun c hc => List.mem_takeWhile_imp hc
  have hindentLine : '\n' ∉ (Text.lastLine front).takeWhile Text.isBlank := by
    intro hmem
    have hline := (List.takeWhile_prefix _).mem hmem
    cases List.mem_rtakeWhile_imp hline
  rw [Text.isBlankLine, List.all_eq_true] at hend
  have hendLine : '\n' ∉ (Mask.maskFrom lexis .code after).takeWhile (· != '\n') := by
    intro hmem
    cases List.mem_takeWhile_imp hmem
  have hrest : EndsLine ((Mask.maskFrom lexis .code after).dropWhile (· != '\n')) := by
    intro c hc
    have hstop := List.head?_dropWhile_not (· != '\n') (Mask.maskFrom lexis .code after)
    rw [Option.mem_def] at hc
    rw [hc] at hstop
    simpa using hstop
  rw [headedLines_eq, headedLines_eq, moveBrace, Mask.mask_brace hcode,
    Mask.mask_brace_moved hcode hindent,
    ← List.takeWhile_append_dropWhile (p := (· != '\n')) (l := Mask.maskFrom lexis .code after)]
  obtain ⟨above, l, below, hold, hnumber, hnew⟩ :=
    headedFrom_brace hindent hindentLine hend hendLine hrest
    (Mask.maskBefore lexis .code front ('\x7b' :: after)) 0 0
  refine ⟨above, l, below, hold, ?_, hnew⟩
  rw [hnumber, (Mask.blanked_maskBefore lexis .code front _).count_newline, Nat.zero_add]

/-- Let a brace in code end the line of a head. On a line of its own it closes the scope of that
head, so all declarations, before the first of each name is kept, keep their names and scopes if and
only if no function below has that scope as its innermost one, or that type as its innermost type.
What is kept of them then has the same names and scopes too. -/
theorem attribution_moveBrace (front after : List Char)
    (hcode : Mask.modeAfter lexis .code front ('\x7b' :: after) = .code)
    (hend : Text.isBlankLine ((Mask.maskFrom lexis .code after).takeWhile (· != '\n')) = true) :
    ∃ above l below, headedLines (front ++ '\x7b' :: after) = above ++ l :: below ∧
      l.number = front.count '\n' ∧
      (l.head.isSome →
        let text := front ++ '\x7b' :: after
        let moved := moveBrace front after
        let depth := braceDepthAfter 0 (Mask.maskBefore lexis .code front ('\x7b' :: after))
        let outer := above.foldl ScopeStack.read .empty
        let inner := outer.read l
        headedLines moved = above ++ l :: ⟨l.number + 1, depth, none⟩ ::
            (below.map fun l => { l with number := l.number + 1 }) ∧
          (depth = l.depth → inner.enterLine depth = outer.enterLine depth) ∧
          ((allDeclarations moved).map Declaration.attribution =
            (allDeclarations text).map Declaration.attribution ↔
            inner.AgreeOn (inner.enterLine depth) below) ∧
          (inner.AgreeOn (inner.enterLine depth) below →
            (declarations moved).map Declaration.attribution =
              (declarations text).map Declaration.attribution)) := by
  obtain ⟨above, l, below, hold, hnumber, hnew⟩ := headedLines_moveBrace hcode hend
  refine ⟨above, l, below, hold, hnumber, ?_⟩
  intro hsome text moved depth outer inner
  have hlines := hnew hsome
  have hiff : (allDeclarations moved).map Declaration.attribution =
      (allDeclarations text).map Declaration.attribution ↔
      inner.AgreeOn (inner.enterLine depth) below := by
    rw [Declaration.map_attribution, Declaration.map_attribution, identity_allDeclarations,
      identity_allDeclarations, hlines, hold]
    exact ScopeStack.map_attributions_insert above below l (l.number + 1) depth (· + 1)
  refine ⟨hlines, ?_, hiff, fun hagree => ?_⟩
  · intro hdepth
    have hordered : outer.Ordered := ScopeStack.ordered_empty.foldl_read above
    have hframe : l.frame?.toList.filter (fun f => decide (f.depth < depth)) = [] := by
      rw [List.filter_eq_nil_iff]
      intro f hf
      obtain ⟨head, -, rfl⟩ := Option.map_eq_some_iff.1 (Option.mem_toList.1 hf)
      simp [hdepth]
    rw [hordered.enterLine_read, hframe, ← hdepth, Nat.min_self]
    rfl
  · rw [declarations_eq, declarations_eq]
    exact Declaration.map_attribution_firstOfEachName (hiff.2 hagree)

/-- A method becomes a function of the file when the brace of its class goes to the next line. -/
theorem attribution_moveBrace_method :
    let front := "class A".toList
    let after := "\n    func f() \x7b\n    \x7d\n\x7d\n".toList
    Mask.modeAfter lexis .code front ('\x7b' :: after) = .code ∧
      Text.isBlankLine ((Mask.maskFrom lexis .code after).takeWhile (· != '\n')) = true ∧
      (declarations (front ++ '\x7b' :: after)).map Declaration.attribution = [("A.f", .type)] ∧
      (declarations (moveBrace front after)).map Declaration.attribution = [("f", .module)] ∧
      ∃ above l below, headedLines (front ++ '\x7b' :: after) = above ++ l :: below ∧ l.number = 0 ∧
        l.head.isSome ∧
        let inner := (above.foldl ScopeStack.read .empty).read l
        ¬inner.AgreeOn (inner.enterLine 0) below := by
  intro front after
  have hcode : Mask.modeAfter lexis .code front ('\x7b' :: after) = .code := rfl
  have hend : Text.isBlankLine ((Mask.maskFrom lexis .code after).takeWhile (· != '\n')) =
      true := by decide +kernel
  have hold : (declarations (front ++ '\x7b' :: after)).map Declaration.attribution =
      [("A.f", .type)] := by
    decide +kernel
  have hnew : (declarations (moveBrace front after)).map Declaration.attribution =
      [("f", .module)] := by
    decide +kernel
  have hheads : ∀ l ∈ headedLines (front ++ '\x7b' :: after), l.number = 0 →
      l.head.isSome := by decide +kernel
  obtain ⟨above, l, below, hlines, hnumber, hrest⟩ := attribution_moveBrace front after hcode hend
  have hsome : l.head.isSome := hheads l (by simp [hlines]) hnumber
  refine ⟨hcode, hend, hold, hnew, above, l, below, hlines, hnumber, hsome, fun hagree => ?_⟩
  have hsame := (hrest hsome).2.2.2 hagree
  rw [hold, hnew] at hsame
  exact absurd hsame (by decide)

end Swift

end CodeSurvey
