import CodeSurvey.Proofs.Outline.Text
import CodeSurvey.Proofs.Pattern.First
import CodeSurvey.Proofs.Extraction.Identity
import CodeSurvey.Proofs.Span

/-!
# Outlines in Python

Classes and functions that are written with four spaces for each level are read back: every function
under its name, with its scope, its line and its parameters. By indentation it covers the lines that
it is written on.
-/
namespace CodeSurvey.Python

/-- The name and the parameters of a function. They are words, so keywords and repeated parameters
are allowed, and names with a character such as U+00B7, which is no word character, are not. -/
structure Signature where
  name : Text.Word
  params : List Text.Word

/-- Only an empty body has a filler. -/
def style : OutlineStyle Text.Word Signature where
  typeName? name := some name.string
  functionName? f := some f.name.string
  fills empty := empty
  unit := 4
  unit_pos := by decide

def indentation (level : Nat) : List Char :=
  List.replicate (4 * level) ' '

/-- What stands before the parameters of a function. -/
def functionFront (level : Nat) (f : Signature) : List Char :=
  indentation level ++ ("def".toList ++ ' ' :: f.name.chars)

def writeLine : OutlineLine Text.Word Signature → List Char
  | .head level (.type name) =>
    indentation level ++ ("class".toList ++ ' ' :: (name.chars ++ [':']))
  | .head level (.function f) => callLine (functionFront level f) (Parameter.written f.params) [':']
  | .filler level => indentation level ++ "pass".toList

/-- The text of an outline. -/
def write (o : Outline Text.Word Signature) : List Char :=
  Text.ofLines ((o.lines style 0).map writeLine)

section Heads
open Pattern

theorem matchHead?_classHead (n : Nat) (name : Text.Word) :
    ∃ m, classHead.matchHead? (List.replicate n ' ' ++
      ("class".toList ++ ' ' :: (name.chars ++ [':']))) = some m ∧
      m.string "name" = name.string := by
  have hgap :
    gap.Leads ⟨.start (List.replicate n ' ' ++ ("class".toList ++ ' ' :: (name.chars ++ [':']))),
      []⟩ _ :=
    leads_spaces rfl rfl rfl
  have hkeyword := hgap.seq (leads_keyword "class" (name.head?_isBlank [':']) rfl)
  have hname := hkeyword.seq ((leads_run1 name.ne_nil name.isWord rfl rfl).group "name")
  exact ⟨_, matchHead?_of_leads hname, Match.string_group _ _ _ rfl⟩

/-- The head of a function is matched up to the parenthesis. -/
theorem matchHead?_defHead (n : Nat) (name : Text.Word) (rest : List Char) :
    ∃ m, defHead.matchHead? (List.replicate n ' ' ++
      ("def".toList ++ ' ' :: (name.chars ++ '(' :: rest))) = some m ∧
      m.string "name" = name.string ∧
      m.whole.stop.offset = Text.size (List.replicate n ' ' ++
        ("def".toList ++ ' ' :: name.chars) ++ ['(']) := by
  have hgap : gap.Leads
      ⟨.start (List.replicate n ' ' ++ ("def".toList ++ ' ' :: (name.chars ++ '(' :: rest))), []⟩
        _ :=
    leads_spaces rfl rfl rfl
  have hasync := hgap.seq (Fails.opt (p := keyword "async") rfl)
  have hkeyword := hasync.seq (leads_keyword "def" (name.head?_isBlank ('(' :: rest)) rfl)
  have hname := hkeyword.seq ((leads_run1 name.ne_nil name.isWord rfl rfl).group "name")
  have hspace := hname.seq (q := gap) (leads_run_nil rfl)
  have hparen := hspace.seq (q := one '(') (leads_char (c := '(') rfl rfl)
  exact ⟨_, matchHead?_of_leads hparen, Match.string_group _ _ _ rfl,
    hparen.offset (by simp [Progress.after])⟩

theorem matchHead?_classHead_def (n : Nat) (rest : List Char) :
    classHead.matchHead? (List.replicate n ' ' ++ ("def".toList ++ rest)) = none := by
  apply matchHead?_of_fails
  apply Fails.seq
  exact fails_after_spaces rfl rfl (fun _ _ _ => rfl) fun _ _ => rfl

theorem matchHead?_classHead_pass (n : Nat) :
    classHead.matchHead? (List.replicate n ' ' ++ "pass".toList) = none := by
  apply matchHead?_of_fails
  apply Fails.seq
  exact fails_after_spaces rfl rfl (fun _ _ _ => rfl) fun _ _ => rfl

theorem matchHead?_defHead_pass (n : Nat) :
    defHead.matchHead? (List.replicate n ' ' ++ "pass".toList) = none := by
  apply matchHead?_of_fails
  apply Fails.seq
  apply Fails.seq
  apply Fails.seq
  apply fails_seq_assoc.2
  exact fails_after_spaces rfl rfl (fun _ _ _ => rfl) fun _ _ => rfl

end Heads

/-! ### The written lines -/

theorem isOutlineChar_of_mem_writeLine (l : OutlineLine Text.Word Signature) :
    ∀ c ∈ writeLine l, isOutlineChar c = true := by
  have hindent : ∀ level, ∀ c ∈ indentation level, isOutlineChar c = true := by
    intro level c hc
    rw [List.eq_of_mem_replicate hc]
    rfl
  have hname : ∀ name : Text.Word, ∀ c ∈ name.chars, isOutlineChar c = true :=
    fun name c hc => isOutlineChar_of_isWord (name.isWord c hc)
  have hparams : ∀ params, ∀ c ∈ Parameter.written params, isOutlineChar c = true :=
    Parameter.forall_mem_written rfl rfl fun c hc => isOutlineChar_of_isWord hc
  have hword : ∀ w : String, w.toList.all isOutlineChar = true →
    ∀ c ∈ w.toList, isOutlineChar c = true :=
    fun w hw => List.all_eq_true.1 hw
  cases l with
  | filler level =>
    rw [writeLine, List.forall_mem_append]
    exact ⟨hindent level, hword "pass" rfl⟩
  | head level item =>
    cases item with
    | type name =>
      rw [writeLine, List.forall_mem_append, List.forall_mem_append, List.forall_mem_cons,
        List.forall_mem_append]
      exact ⟨hindent level, hword "class" rfl, rfl, hname name, hword ":" rfl⟩
    | function f =>
      rw [writeLine, callLine, functionFront, List.forall_mem_append, List.forall_mem_append,
        List.forall_mem_append, List.forall_mem_cons, List.forall_mem_cons, List.forall_mem_append,
        List.forall_mem_cons]
      exact ⟨⟨hindent level, hword "def" rfl, rfl, hname f.name⟩, rfl, hparams f.params, rfl,
        hword ":" rfl⟩

theorem plain_of_isOutlineChar {c : Char} (h : isOutlineChar c = true) : lexis.Plain c where
  lineComment rest := by
    have hc : c ≠ '#' := Text.ne_of_class h rfl
    simp [lexis, List.isPrefixOf, Ne.symm hc]
  blockComment _ := rfl
  quote := ⟨Text.ne_of_class h rfl, Text.ne_of_class h rfl, Text.ne_of_class h rfl⟩

theorem written_write (o : Outline Text.Word Signature) :
    (SourceText.ofText lexis (write o)).Written ((o.lines style 0).map writeLine) := by
  apply SourceText.written_ofText fun c => plain_of_isOutlineChar
  · exact ⟨fun _ => rfl, fun _ => rfl, by decide⟩
  · intro line hline
    obtain ⟨l, -, rfl⟩ := List.mem_map.1 hline
    exact isOutlineChar_of_mem_writeLine l

/-- Behind the indentation a line goes on with a letter. -/
theorem exists_writeLine_eq (l : OutlineLine Text.Word Signature) :
    ∃ c rest, writeLine l = List.replicate (4 * l.level) ' ' ++ c :: rest ∧
    Text.isBlank c = false := by
  cases l with
  | filler level => exact ⟨'p', "ass".toList, rfl, rfl⟩
  | head level item =>
    cases item with
    | type name => exact ⟨'c', _, rfl, rfl⟩
    | function f =>
      exact ⟨'d', _, by rw [writeLine, callLine, functionFront, List.append_assoc]; rfl, rfl⟩

theorem indentWidth_spaces (n : Nat) {c : Char} (hc : Text.isBlank c = false) (rest : List Char) :
    indentWidth (List.replicate n ' ' ++ c :: rest) = n := by
  have htake : (List.replicate n ' ' ++ c :: rest).takeWhile Text.isBlank =
      List.replicate n ' ' := by
    rw [List.takeWhile_append_of_pos, List.takeWhile_cons_of_neg (by simp [hc]), List.append_nil]
    intro d hd
    rw [List.eq_of_mem_replicate hd]
    rfl
  have hcount : ∀ k, (List.replicate k ' ').foldr (fun c n => (if c == '\t' then 4 else 1) + n) 0 =
      k := by
    intro k
    induction k with
    | zero => rfl
    | succ k ih =>
      rw [List.replicate_succ, List.foldr_cons, ih]
      exact Nat.add_comm 1 k
  rw [indentWidth, htake, hcount]

theorem indentWidth_writeLine (l : OutlineLine Text.Word Signature) :
    indentWidth (writeLine l) = 4 * l.level := by
  obtain ⟨c, rest, hline, hc⟩ := exists_writeLine_eq l
  rw [hline, indentWidth_spaces _ hc]

theorem isBlankLine_writeLine (l : OutlineLine Text.Word Signature) :
    Text.isBlankLine (writeLine l) = false := by
  obtain ⟨c, rest, hline, hc⟩ := exists_writeLine_eq l
  rw [hline, Text.isBlankLine, List.all_eq_false]
  exact ⟨c, by simp, by simp [hc]⟩

/-! ### Heads on the written lines -/

section Written

variable {s : SourceText} {before after : List (List Char)} {level : Nat} {f : Signature}

theorem matchHead?_function (level : Nat) (f : Signature) :
    ∃ m, defHead.matchHead? (writeLine (.head level (.function f))) = some m ∧
      m.string "name" = f.name.string ∧
      m.whole.stop.offset = Text.size (functionFront level f ++ ['(']) := by
  have hline : writeLine (.head level (.function f)) = List.replicate (4 * level) ' ' ++
      ("def".toList ++ ' ' :: (f.name.chars ++
        '(' :: (Parameter.written f.params ++ [')', ':']))) := by
    simp [writeLine, callLine, functionFront, indentation]
  rw [hline]
  exact matchHead?_defHead (4 * level) f.name _

/-- A list of parameters on one line has swallowed nothing. -/
theorem runsIntoDeclaration_of_not_mem {c : Char} {params : List Char} (h : '\n' ∉ c :: params) :
    runsIntoDeclaration (c :: params) = false := by
  have hpieces : Text.pieces (c :: params) = [c :: params] := List.splitOn_eq_singleton h
  rw [runsIntoDeclaration, Text.lines, hpieces]
  rfl

theorem written_no_parens (params : List Text.Word) :
    ∀ c ∈ Parameter.written params, c ≠ '(' ∧ c ≠ ')' :=
  Parameter.forall_mem_written (by decide) (by decide)
    (fun _ hc => ⟨Text.ne_of_class hc rfl, Text.ne_of_class hc rfl⟩) params

/-- Where the head of a function is, if it stands on a line. -/
def headAt (before : List (List Char)) (level : Nat) (f : Signature) : Head where
  name := f.name.string
  opening := Text.size (Text.ofLines before ++ functionFront level f)
  closing := Text.size (Text.ofLines before ++ functionFront level f) + 1 +
    Text.size (Parameter.written f.params)
  colon := Text.size (Text.ofLines before ++ functionFront level f) + 1 +
    Text.size (Parameter.written f.params) + 1

theorem head?_written (h : s.Written (before ++ writeLine (.head level (.function f)) :: after)) :
    head? s before.length (writeLine (.head level (.function f))) =
      some (headAt before level f) := by
  obtain ⟨m, hm, hname, hstop⟩ := matchHead?_function level f
  have hparen : Text.size ['('] = 1 := rfl
  have hopening : s.lineStart before.length + m.whole.stop.offset - 1 =
      Text.size (Text.ofLines before ++ functionFront level f) := by
    rw [h.lineStart, hstop, Text.size_append, Text.size_append, hparen]
    omega
  have hclosing := h.matchingParen? (written_no_parens f.params)
  have hnewline : '\n' ∉ '(' :: Parameter.written f.params := by
    intro hmem
    rcases List.mem_cons.1 hmem with heq | hmem
    · cases heq
    · exact Parameter.forall_mem_written (P := fun c => c ≠ '\n') (by decide) (by decide)
        (fun c hc => Text.ne_of_class hc rfl) f.params _ hmem rfl
  simp only [head?, hm, Option.bind_eq_bind, Option.bind_some, hopening, hclosing, h.slice_opening,
    h.dropBytes_closing, runsIntoDeclaration_of_not_mem hnewline, Bool.false_eq_true, if_false,
    hname]
  rfl

/-- Types that come from documentation do not change names. -/
theorem map_name_withDocTypes (tags : Doc.TypeTags) (params : List Parameter) :
    (withDocTypes tags params).map Parameter.name = params.map Parameter.name := by
  rw [withDocTypes, List.map_map]
  apply List.map_congr_left
  intro p _
  rw [Function.comp_apply]
  split <;> rfl

/-- What is reported of a declaration: its name, its scope, its line and the names of its
parameters. -/
def report (d : Declaration) : String × ScopeKind × Nat × List String :=
  (d.name, d.scope, d.line, d.params.map Parameter.name)

theorem report_declare (stack : ScopeStack)
    (h : s.Written (before ++ writeLine (.head level (.function f)) :: after)) :
    report (declare s stack before.length (headAt before level f)) =
      ((stack.qualify f.name.string).1, (stack.qualify f.name.string).2, before.length + 1,
        f.params.map Text.Word.string) := by
  have hparams : (declare s stack before.length (headAt before level f)).params.map Parameter.name =
      f.params.map Text.Word.string := by
    have hslice : Text.slice s.masked ((headAt before level f).opening + 1)
        (headAt before level f).closing =
        Parameter.written f.params := h.slice_params
    rw [declare, map_name_withDocTypes, h.raw_eq, hslice, Parameter.map_name_parseMasked_written]
  rw [report, hparams]
  rfl

/-! ### The walk over the written lines -/

/-- What a walk over an outline finds, as it is reported. -/
def reportFound (e : (String × ScopeKind) × Nat × Signature) :
    String × ScopeKind × Nat × List String :=
  (e.1.1, e.1.2, e.2.1 + 1, e.2.2.params.map Text.Word.string)

/-- A walk over the text follows a walk over the outline. -/
structure Follows (w : Walk) (v : OutlineWalk Signature) : Prop where
  stack : w.stack = v.stack
  resume : w.resume ≤ v.line
  found : w.found.map report = v.found.map reportFound

theorem Follows.visit {w : Walk} {v : OutlineWalk Signature} {l : OutlineLine Text.Word Signature}
    (hw : Follows w v) (h : s.Written (before ++ writeLine l :: after))
    (hline : v.line = before.length) :
    Follows (Python.visit s w (writeLine l, before.length)) (v.visit style l) := by
  have hskip : ¬(before.length < w.resume || Text.isBlankLine (writeLine l)) = true := by
    have hresume := hw.resume
    rw [isBlankLine_writeLine, Bool.or_false, decide_eq_true_eq]
    omega
  rw [Python.visit, if_neg hskip, indentWidth_writeLine, hw.stack]
  have hresume : w.resume ≤ v.line + 1 := Nat.le_succ_of_le hw.resume
  cases l with
  | filler level =>
    have hclass : classHead.matchHead? (writeLine (.filler level)) = none :=
      matchHead?_classHead_pass (4 * level)
    have hhead : head? s before.length (writeLine (.filler level)) = none := by
      rw [head?, writeLine, indentation, matchHead?_defHead_pass]
      rfl
    rw [hclass, hhead]
    exact ⟨rfl, hresume, hw.found⟩
  | head level item =>
    cases item with
    | type name =>
      obtain ⟨m, hm, hname⟩ := matchHead?_classHead (4 * level) name
      have hclass : classHead.matchHead? (writeLine (.head level (.type name))) = some m := hm
      rw [hclass]
      dsimp only
      rw [hname]
      exact ⟨rfl, hresume, hw.found⟩
    | function f =>
      have hclass : classHead.matchHead? (writeLine (.head level (.function f))) = none := by
        rw [writeLine, callLine, functionFront, List.append_assoc, List.append_assoc]
        exact matchHead?_classHead_def (4 * level) _
      rw [hclass, head?_written h]
      refine ⟨rfl, ?_, ?_⟩
      · have hcolon : s.index.lineOf (headAt before level f).colon = before.length :=
          h.lineOf_closing
        dsimp only
        rw [hcolon, ← hline]
        exact Nat.le_refl _
      · dsimp only
        rw [List.map_cons, report_declare _ h, hw.found, ← hline]
        rfl

theorem follows_foldl (before : List (List Char)) {ls : List (OutlineLine Text.Word Signature)}
    {w : Walk} {v : OutlineWalk Signature} (hw : Follows w v)
    (h : s.Written (before ++ ls.map writeLine)) (hline : v.line = before.length) :
    Follows (((ls.map writeLine).zipIdx before.length).foldl (visit s) w)
      (ls.foldl (OutlineWalk.visit style) v) := by
  induction ls generalizing before w v with
  | nil => exact hw
  | cons l ls ih =>
    have hnext : (v.visit style l).line = (before ++ [writeLine l]).length := by
      rw [OutlineWalk.line_visit, hline, List.length_append]
      rfl
    rw [List.map_cons] at h
    rw [List.map_cons, List.zipIdx_cons, List.foldl_cons, List.foldl_cons]
    have hrest := ih (before ++ [writeLine l]) (hw.visit h hline) (by rwa [List.append_assoc]) hnext
    rwa [List.length_append] at hrest

end Written

theorem visit_nil (s : SourceText) (w : Walk) (i : Nat) : visit s w ([], i) = w := by
  rw [visit, if_pos]
  exact Bool.or_true _

theorem map_report_found (o : Outline Text.Word Signature) :
    ((SourceText.ofText lexis (write o)).numberedLines.foldl (visit (.ofText lexis (write o)))
        ⟨.empty, 0, []⟩).found.map report =
      ((o.functions style .top 0).map fun f =>
        (f.place.qualify f.head.name.string, f.place.scope, f.line + 1,
          f.head.params.map Text.Word.string)).reverse := by
  have hwritten := written_write o
  have hfollows : Follows
      ((((o.lines style 0).map writeLine).zipIdx 0).foldl (visit (.ofText lexis (write o)))
        ⟨.empty, 0, []⟩) ((o.lines style 0).foldl (OutlineWalk.visit style) .start) :=
    follows_foldl [] ⟨rfl, Nat.le_refl _, rfl⟩ hwritten rfl
  have hfound : (o.functions style .top 0).filterMap (OutlineFunction.found? style) =
      (o.functions style .top 0).map fun f =>
        ((f.place.qualify f.head.name.string, f.place.scope), f.line, f.head) := by
    -- Every head is read.
    rw [← List.filterMap_eq_map]
    rfl
  rw [SourceText.numberedLines, hwritten.maskedLines, List.zipIdx_append, List.foldl_append,
    List.zipIdx_cons, List.foldl_cons, visit_nil, List.zipIdx_nil, List.foldl_nil, hfollows.found,
    o.found_lines, hfound, List.map_reverse, List.map_map]
  rfl

theorem parenBalance_function (level : Nat) (f : Signature) :
    LineSpan.parenBalance (writeLine (.head level (.function f))) = 0 := by
  have hfront : ∀ c ∈ functionFront level f, c ≠ '(' ∧ c ≠ ')' := by
    intro c hc
    rw [functionFront, List.mem_append, List.mem_append, List.mem_cons] at hc
    rcases hc with hc | hc | rfl | hc
    · rw [List.eq_of_mem_replicate hc]
      decide
    · have hword : Text.isWord c = true :=
        List.all_eq_true.1 (rfl : "def".toList.all Text.isWord = true) c hc
      exact ⟨Text.ne_of_class hword rfl, Text.ne_of_class hword rfl⟩
    · decide
    · exact ⟨f.name.ne hc rfl, f.name.ne hc rfl⟩
  exact LineSpan.parenBalance_call hfront (written_no_parens f.params) (by simp)

/-- The lines of a function are deeper than its head, and the next line is not. -/
theorem byIndentation?_write {o : Outline Text.Word Signature}
    {f : OutlineFunction Text.Word Signature} (hf : f ∈ o.functions style .top 0) :
    LineSpan.byIndentation? (SourceText.ofText lexis (write o)).maskedLines f.line =
      some ⟨f.line, f.line + (f.lines style).length - 1⟩ := by
  obtain ⟨before, after, hline, hmasked, hafter⟩ := (written_write o).exists_function hf
  have hbody : ∀ l ∈ (f.body.block style f.place.level).map writeLine, Text.isBlankLine l = false ∧
      indentWidth (writeLine (.head f.place.level (.function f.head))) < indentWidth l := by
    intro line hline
    obtain ⟨l, hl, rfl⟩ := List.mem_map.1 hline
    have hdeeper := Outline.lt_level_of_mem_block hl
    rw [indentWidth_writeLine, indentWidth_writeLine]
    exact ⟨isBlankLine_writeLine l, Nat.mul_lt_mul_of_pos_left hdeeper (by decide)⟩
  have hrest : ∀ l ∈ (after.map writeLine).head?, Text.isBlankLine l = false ∧
      indentWidth l ≤ indentWidth (writeLine (.head f.place.level (.function f.head))) := by
    intro line hline
    rw [List.head?_map] at hline
    obtain ⟨l, hl, rfl⟩ := Option.map_eq_some_iff.1 hline
    rw [indentWidth_writeLine, indentWidth_writeLine]
    exact ⟨isBlankLine_writeLine l, Nat.mul_le_mul_left 4 (hafter l hl)⟩
  rw [hmasked, hline, OutlineFunction.lines, List.map_cons,
    LineSpan.byIndentation?_append (parenBalance_function f.place.level f.head) hbody hrest]
  simp only [List.length_map]
  rfl

/-- An outline is read back from its text: the first function of each name is declared with its
scope, its line and its parameters, and every function covers the lines that it is written on. -/
theorem declarations_write_indented (o : Outline Text.Word Signature) :
    (declarations (write o)).map report =
        ((o.functions style .top 0).map fun f =>
          (f.place.qualify f.head.name.string, f.place.scope, f.line + 1,
            f.head.params.map Text.Word.string)).eraseDupsBy (fun a b => a.1 == b.1) ∧
      ∀ f ∈ o.functions style .top 0,
        LineSpan.byIndentation? (Text.pieces (mask lexis (write o))) f.line =
            some ⟨f.line, f.line + (f.lines style).length - 1⟩ ∧
          ((Text.pieces (mask lexis (write o))).drop f.line).take (f.lines style).length =
            (f.lines style).map writeLine := by
  constructor
  · rw [declarations, Declaration.map_firstOfEachName (f := report) fun _ => rfl, List.map_reverse,
      map_report_found o, List.reverse_reverse]
  · exact fun f hf => ⟨byIndentation?_write hf, (written_write o).take_drop_function hf⟩

-- A class with one method, whose body is empty.
example :
    write (.item (.type ⟨['A'], by decide, List.all_eq_true.1 rfl⟩)
      (.item (.function ⟨⟨['f'], by decide, List.all_eq_true.1 rfl⟩,
          [⟨['x'], by decide, List.all_eq_true.1 rfl⟩, ⟨['y'], by decide, List.all_eq_true.1 rfl⟩]⟩)
            .nil .nil) .nil) =
      "class A:\n    def f(x, y):\n        pass\n".toList :=
  rfl

end CodeSurvey.Python
