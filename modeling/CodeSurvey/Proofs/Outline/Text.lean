import CodeSurvey.Proofs.Outline.Basic
import CodeSurvey.Proofs.Parameter
import CodeSurvey.SourceText

/-!
# Written texts

A text without comments and literals is its own masked form. Where it is written line by line, a
head of a function is found on its line, with the parentheses around its parameters.
-/
namespace CodeSurvey

/-- The character starts neither a comment nor a literal. -/
structure Lexis.Plain (lexis : Lexis) (c : Char) : Prop where
  lineComment : ∀ rest, lexis.lineComment.isPrefixOf (c :: rest) = false
  blockComment : ∀ rest, lexis.blockComment.filter (fun b => b.1.isPrefixOf (c :: rest)) = none
  quote : c ≠ '"' ∧ c ≠ '\'' ∧ c ≠ '\x60'

theorem Mask.stepCode_of_plain {lexis : Lexis} {c : Char} (h : lexis.Plain c) (rest : List Char) :
    stepCode lexis c rest = (.code, .code) := by
  have htriple : opensTriple (c :: rest) = false := by
    simp [opensTriple, List.isPrefixOf, Ne.symm h.quote.1, Ne.symm h.quote.2.1]
  have hquote : opensQuote lexis c = false := by
    simp [opensQuote, h.quote]
  rw [stepCode, if_neg (by simp [h.lineComment]), h.blockComment]
  simp [htriple, hquote]

theorem mask_of_plain {lexis : Lexis} {text : List Char} (h : ∀ c ∈ text, lexis.Plain c) :
    mask lexis text = text := by
  rw [mask]
  induction text with
  | nil => rfl
  | cons c text ih =>
    rw [Mask.regions, Mask.step, Mask.stepCode_of_plain (h c (by simp)), List.flatMap_cons,
      ih fun d hd => h d (by simp [hd])]
    rfl

/-- The characters of names, which may be any outside of ASCII, and of what stands around them. -/
def isOutlineChar (c : Char) : Bool :=
  Text.isWord c || 128 ≤ c.toNat || [' ', ':', ',', '(', ')', '\x7b', '\x7d'].contains c

theorem isOutlineChar_of_isWord {c : Char} (h : Text.isWord c = true) : isOutlineChar c = true := by
  rw [isOutlineChar, h, Bool.true_or, Bool.true_or]

/-! ### Source texts made of lines -/

/-- The source text is written in these lines, without comments and literals. -/
structure SourceText.Written (s : SourceText) (lines : List (List Char)) : Prop where
  raw : s.raw = Text.ofLines lines
  masked : s.masked = Text.ofLines lines
  index : s.index = .ofText (Text.ofLines lines)
  maskedLines : s.maskedLines = lines ++ [[]]
  newline : ∀ line ∈ lines, '\n' ∉ line

namespace SourceText

theorem written_ofText {lexis : Lexis} (hplain : ∀ c, isOutlineChar c = true → lexis.Plain c)
    (hbreak : lexis.Plain '\n') {lines : List (List Char)}
    (hlines : ∀ line ∈ lines, ∀ c ∈ line, isOutlineChar c = true) :
    (ofText lexis (Text.ofLines lines)).Written lines := by
  have hmask : mask lexis (Text.ofLines lines) = Text.ofLines lines := by
    apply mask_of_plain
    intro c hc
    obtain ⟨line, hline, hc⟩ := List.mem_flatMap.1 hc
    rcases List.mem_append.1 hc with hc | hc
    · exact hplain c (hlines line hline c hc)
    · obtain rfl := List.mem_singleton.1 hc
      exact hbreak
  have hnewline : ∀ line ∈ lines, '\n' ∉ line :=
    fun line hline hmem => Text.ne_of_class (hlines line hline _ hmem) rfl rfl
  refine ⟨rfl, hmask, ?_, ?_, hnewline⟩
  · rw [ofText, hmask]
  · rw [ofText, hmask]
    exact Text.pieces_ofLines hnewline

variable {s : SourceText} {before after : List (List Char)} {line : List Char}

namespace Written

theorem masked_eq (h : s.Written (before ++ line :: after)) :
    s.masked = Text.ofLines before ++ (line ++ '\n' :: Text.ofLines after) := by
  rw [h.masked, Text.ofLines_append, Text.ofLines_cons]

theorem raw_eq (h : s.Written (before ++ line :: after)) : s.raw = s.masked := by
  rw [h.raw, h.masked]

theorem lineStart (h : s.Written (before ++ line :: after)) :
    s.lineStart before.length = Text.size (Text.ofLines before) := by
  have hbefore : ∀ l ∈ before, '\n' ∉ l := fun l hl => h.newline l (by simp [hl])
  have hstart := Text.LineIndex.lineStart?_ofLines hbefore (Text.ofLines (line :: after))
  rw [SourceText.lineStart, h.index, Text.ofLines_append, hstart]
  rfl

/-- A place on a line has the number of that line. -/
theorem lineOf {part rest : List Char} (h : s.Written (before ++ (part ++ rest) :: after)) :
    s.index.lineOf (Text.size (Text.ofLines before ++ part)) = before.length := by
  have hpart : '\n' ∉ part := fun hmem => h.newline _ (by simp) (List.mem_append_left rest hmem)
  have htext : Text.ofLines (before ++ (part ++ rest) :: after) =
      (Text.ofLines before ++ part) ++ (rest ++ '\n' :: Text.ofLines after) := by
    simp
  rw [h.index, htext, Text.LineIndex.lineOf_size, List.count_append, List.count_eq_zero.2 hpart,
    Nat.add_zero, Text.count_ofLines fun l hl => h.newline l (by simp [hl])]

variable {τ φ : Type} {style : OutlineStyle τ φ} {o : Outline τ φ}
  {write : OutlineLine τ φ → List Char}
  {f : OutlineFunction τ φ}

/-- The lines of a function stand where the outline has it, and no deeper line follows them. -/
theorem exists_function (h : s.Written ((o.lines style 0).map write))
    (hf : f ∈ o.functions style .top 0) :
    ∃ before after : List (OutlineLine τ φ), f.line = (before.map write).length ∧
      s.maskedLines = before.map write ++ ((f.lines style).map write ++ (after.map write ++ [[]])) ∧
      ∀ l ∈ after.head?, l.level ≤ f.place.level := by
  obtain ⟨before, after, hlines, hline, hafter⟩ := Outline.exists_lines_of_mem_functions hf
  have htop : OutlinePlace.top.level = 0 := rfl
  refine ⟨before, after, ?_, ?_, hafter⟩
  · rw [List.length_map, hline, Nat.zero_add]
  · rw [htop] at hlines
    rw [h.maskedLines, hlines, List.map_append, List.map_append, List.append_assoc,
      List.append_assoc]

theorem take_drop_function (h : s.Written ((o.lines style 0).map write))
    (hf : f ∈ o.functions style .top 0) :
    (s.maskedLines.drop f.line).take (f.lines style).length = (f.lines style).map write := by
  obtain ⟨before, after, hline, hmasked, -⟩ := h.exists_function hf
  rw [hmasked, hline, List.drop_left, ← List.length_map (f := write), List.take_left]

end Written

end SourceText

/-! ### Parentheses around parameters -/

theorem closeFrom_append {cs : List Char} (h : ∀ c ∈ cs, c ≠ '(' ∧ c ≠ ')') (offset depth : Nat)
    (rest : List Char) :
    closeFrom offset depth (cs ++ rest) = closeFrom (offset + Text.size cs) depth rest := by
  induction cs generalizing offset with
  | nil => rfl
  | cons c cs ih =>
    have hc := h c (by simp)
    rw [List.cons_append, closeFrom, if_neg (by simpa using hc.1), if_neg (by simpa using hc.2),
      ih fun d hd => h d (by simp [hd]), Text.size_cons, Nat.add_assoc]

theorem matchingParen?_append {params : List Char} (h : ∀ c ∈ params, c ≠ '(' ∧ c ≠ ')')
    (front rest : List Char) :
    matchingParen? (front ++ '(' :: (params ++ ')' :: rest)) (Text.size front) =
      some (Text.size front + 1 + Text.size params) := by
  rw [matchingParen?, Text.dropBytes?_append]
  simp only [closeFrom_append h]
  rfl

/-- A line with parameters in parentheses. -/
def callLine (front params rest : List Char) : List Char :=
  front ++ '(' :: (params ++ ')' :: rest)

namespace SourceText.Written

variable {s : SourceText} {before after : List (List Char)} {front params rest : List Char}

theorem masked_callLine (h : s.Written (before ++ callLine front params rest :: after)) :
    s.masked = (Text.ofLines before ++ front) ++
      '(' :: (params ++ ')' :: (rest ++ '\n' :: Text.ofLines after)) := by
  rw [h.masked_eq, callLine]
  simp

theorem matchingParen? (h : s.Written (before ++ callLine front params rest :: after))
    (hparams : ∀ c ∈ params, c ≠ '(' ∧ c ≠ ')') :
    matchingParen? s.masked (Text.size (Text.ofLines before ++ front)) =
      some (Text.size (Text.ofLines before ++ front) + 1 + Text.size params) := by
  rw [h.masked_callLine, matchingParen?_append hparams]

theorem slice_opening (h : s.Written (before ++ callLine front params rest :: after)) :
    Text.slice s.masked (Text.size (Text.ofLines before ++ front))
      (Text.size (Text.ofLines before ++ front) + 1 + Text.size params) = '(' :: params := by
  rw [h.masked_callLine, ← List.cons_append]
  exact Text.slice_append rfl (by rw [Text.size_cons, Nat.add_assoc]; rfl)

/-- Between the parentheses stand the parameters. -/
theorem slice_params (h : s.Written (before ++ callLine front params rest :: after)) :
    Text.slice s.masked (Text.size (Text.ofLines before ++ front) + 1)
      (Text.size (Text.ofLines before ++ front) + 1 + Text.size params) = params := by
  have hmasked : s.masked = (Text.ofLines before ++ front ++ ['(']) ++
      (params ++ ')' :: (rest ++ '\n' :: Text.ofLines after)) := by
    rw [h.masked_callLine, List.append_assoc _ ['(']]
    rfl
  have hsize : Text.size (Text.ofLines before ++ front ++ ['(']) =
    Text.size (Text.ofLines before ++ front) + 1 :=
    Text.size_append _ _
  rw [hmasked]
  exact Text.slice_append hsize.symm (by rw [hsize])

theorem size_closing (before : List (List Char)) (front params : List Char) :
    Text.size (Text.ofLines before ++ (front ++ '(' :: (params ++ [')']))) =
      Text.size (Text.ofLines before ++ front) + 1 + Text.size params + 1 := by
  have hopening : '('.utf8Size = 1 := rfl
  have hclosing : Text.size [')'] = 1 := rfl
  rw [← List.append_assoc, Text.size_append _ ('(' :: _), Text.size_cons, Text.size_append params,
    hopening, hclosing]
  omega

theorem dropBytes_closing (h : s.Written (before ++ callLine front params rest :: after)) :
    Text.dropBytes (Text.size (Text.ofLines before ++ front) + 1 + Text.size params + 1) s.masked =
      rest ++ '\n' :: Text.ofLines after := by
  have hmasked : s.masked = (Text.ofLines before ++ (front ++ '(' :: (params ++ [')']))) ++
      (rest ++ '\n' :: Text.ofLines after) := by
    rw [h.masked_callLine]
    simp
  rw [hmasked, ← size_closing, Text.dropBytes_append]

theorem lineOf_closing (h : s.Written (before ++ callLine front params rest :: after)) :
    s.index.lineOf (Text.size (Text.ofLines before ++ front) + 1 + Text.size params + 1) =
      before.length := by
  have hline : callLine front params rest = (front ++ '(' :: (params ++ [')'])) ++ rest := by
    simp [callLine]
  rw [hline] at h
  rw [← size_closing, h.lineOf]

end SourceText.Written

end CodeSurvey
