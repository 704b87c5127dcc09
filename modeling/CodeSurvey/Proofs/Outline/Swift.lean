import CodeSurvey.Proofs.Extraction.Identity
import CodeSurvey.Proofs.Outline.Text
import CodeSurvey.Proofs.Pattern.First
import Mathlib.Data.List.TakeWhile

/-!
# Outlines in Swift

Types and functions whose bodies stand in braces are read back: every function under its name, with
its scope and its line. The depth of a line is the number of braces that are open at its start, so
the line of a closing brace still belongs to the body. By braces a function covers the lines from
its head to its closing brace.

A head is read if its name starts with a letter of ASCII or an underscore. A function is then known
by its name if that consists of word characters, and a type by the word characters at the front of
its name. What stands inside an item that is not read counts for the next item around it.
-/
namespace CodeSurvey.Swift

/-- A word character, or another one outside of ASCII that is no white space. -/
def isIdentifierChar (c : Char) : Bool :=
  Text.isWord c || (128 ≤ c.toNat && !Text.isBlank c)

/-- A name. The identifiers and the keywords of the language are among the names; the quotes that
may stand around an identifier are not part of it. -/
structure Identifier where
  chars : List Char
  ne_nil : chars ≠ []
  isIdentifierChar : ∀ c ∈ chars, isIdentifierChar c = true

namespace Identifier

def string (name : Identifier) : String :=
  String.ofList name.chars

/-- The word characters at the front of a name that starts with a letter of ASCII or an
underscore. -/
def front? (name : Identifier) : Option (List Char) :=
  if name.chars.head?.any isNameStart then some (name.chars.takeWhile Text.isWord) else none

/-- What a type with this name is known by. The words that may follow the keyword of a type in a
member declaration are left out. -/
def asType? (name : Identifier) : Option String :=
  (name.front?.map String.ofList).filter fun s =>
    !(["func", "var", "let", "subscript"].contains s)

/-- What a function with this name is known by: the whole name or nothing. -/
def asFunction? (name : Identifier) : Option String :=
  (name.front?.filter (· == name.chars)).map String.ofList

end Identifier

/-- Every body ends in the line of its closing brace, which is as deep as the items in it. -/
def style : OutlineStyle Identifier Identifier where
  typeName? := Identifier.asType?
  functionName? := Identifier.asFunction?
  fills _ := true
  unit := 1
  unit_pos := by decide

/-- What stands before the parameters of a function, behind `n` spaces. -/
def functionFront (n : Nat) (name : Identifier) : List Char :=
  List.replicate n ' ' ++ ("func".toList ++ ' ' :: name.chars)

/-- What stands before the brace of a type, behind `n` spaces. -/
def typeFront (n : Nat) (name : Identifier) : List Char :=
  List.replicate n ' ' ++ ("struct".toList ++ ' ' :: name.chars)

/-- Each level is indented by `width` spaces. A closing brace stands under the head of its item. -/
def writeLine (width : Nat) : OutlineLine Identifier Identifier → List Char
  | .head level (.type name) => typeFront (width * level) name ++ [' ', '\x7b']
  | .head level (.function name) => callLine (functionFront (width * level) name) [] [' ', '\x7b']
  | .filler level => List.replicate (width * (level - 1)) ' ' ++ ['\x7d']

/-- The text of an outline. -/
def write (width : Nat) (o : Outline Identifier Identifier) : List Char :=
  Text.ofLines ((o.lines style 0).map (writeLine width))

/-! ### Names -/

theorem isBlank_of_isIdentifierChar {c : Char} (h : isIdentifierChar c = true) :
    Text.isBlank c = false := by
  rw [isIdentifierChar, Bool.or_eq_true, Bool.and_eq_true, Bool.not_eq_true'] at h
  rcases h with h | h
  · exact Text.isBlank_of_isWord h
  · exact h.2

namespace Identifier

variable {name : Identifier} {front : List Char}

theorem ne (name : Identifier) {c d : Char} (hc : c ∈ name.chars)
    (hd : Swift.isIdentifierChar d = false) :
    c ≠ d :=
  Text.ne_of_class (name.isIdentifierChar c hc) hd

theorem head?_any (name : Identifier) {accepts : Char → Bool}
    (h : ∀ c ∈ name.chars, accepts c = false) (rest : List Char) :
      (name.chars ++ rest).head?.any accepts = false := by
  cases hchars : name.chars with
  | nil => exact absurd hchars name.ne_nil
  | cons c cs => exact h c (by simp [hchars])

theorem head?_isBlank (name : Identifier) (rest : List Char) :
    (name.chars ++ rest).head?.any Text.isBlank = false :=
  name.head?_any (fun c hc => isBlank_of_isIdentifierChar (name.isIdentifierChar c hc)) rest

/-- A name is read from its first character on through word characters, and then goes on with
`tail`. -/
structure Splits (name : Identifier) (first : Char) (more tail : List Char) : Prop where
  chars : name.chars = first :: (more ++ tail)
  first : isNameStart first = true
  more : ∀ c ∈ more, Text.isWord c = true
  stop : tail.head?.any Text.isWord = false

theorem isWord_of_isNameStart {c : Char} (h : isNameStart c = true) : Text.isWord c = true := by
  rcases Bool.or_eq_true_iff.1 h with halpha | hunderscore
  · exact Text.isWord_of_isAlpha halpha
  · rw [beq_iff_eq.1 hunderscore]
    rfl

theorem exists_splits (h : name.front? = some front) :
    ∃ first more tail, name.Splits first more tail ∧ front = first :: more := by
  rw [front?] at h
  split at h
  · rename_i hstart
    cases hchars : name.chars with
    | nil => exact absurd hchars name.ne_nil
    | cons c cs =>
      rw [hchars] at hstart h
      have hc : isNameStart c = true := hstart
      refine ⟨c, cs.takeWhile Text.isWord, cs.dropWhile Text.isWord, ⟨?_, hc, ?_, ?_⟩, ?_⟩
      · rw [hchars, List.takeWhile_append_dropWhile]
      · exact List.all_eq_true.1 List.all_takeWhile
      · have hhead := List.head?_dropWhile_not Text.isWord cs
        cases hdrop : (cs.dropWhile Text.isWord).head? with
        | none => rfl
        | some d =>
          rw [hdrop] at hhead
          exact hhead
      · rw [List.takeWhile_cons_of_pos (isWord_of_isNameStart hc)] at h
        exact (Option.some.inj h).symm
  · cases h

theorem head?_isNameStart (h : name.front? = none) (rest : List Char) :
    (name.chars ++ rest).head?.any isNameStart = false := by
  cases hchars : name.chars with
  | nil => exact absurd hchars name.ne_nil
  | cons c cs =>
    have hc : ¬(isNameStart c = true) := by
      simpa [front?, hchars] using h
    exact Bool.eq_false_iff.2 hc

/-- A function is known by a name that is read as a whole. -/
theorem asFunction?_eq_some {text : String} (h : name.asFunction? = some text) :
    (∃ first more, name.Splits first more []) ∧ text = name.string := by
  obtain ⟨front, hfront, rfl⟩ := Option.map_eq_some_iff.1 h
  obtain ⟨hfront, heq⟩ := Option.filter_eq_some_iff.1 hfront
  obtain rfl := beq_iff_eq.1 heq
  obtain ⟨first, more, tail, hsplits, hchars⟩ := exists_splits hfront
  have htail : tail = [] := by
    have hall := hsplits.chars
    rw [hchars, List.cons_inj_right, List.self_eq_append_right] at hall
    exact hall
  rw [htail] at hsplits
  exact ⟨⟨first, more, hsplits⟩, rfl⟩

/-- A function is not known if its name is not read, or not up to its end. -/
theorem asFunction?_eq_none (h : name.asFunction? = none) :
    name.front? = none ∨ ∃ first more tail, name.Splits first more tail ∧ tail ≠ [] := by
  cases hfront : name.front? with
  | none => exact .inl rfl
  | some front =>
    obtain ⟨first, more, tail, hsplits, rfl⟩ := exists_splits hfront
    refine .inr ⟨first, more, tail, hsplits, ?_⟩
    rintro rfl
    rw [asFunction?, hfront, hsplits.chars, List.append_nil] at h
    simp at h

end Identifier

section Heads
open Pattern

variable {s t : Progress} {rest : List Char} {name : Identifier} {first : Char}
  {more tail : List Char}

/-- A name is read through its word characters, if what follows them cannot be read. -/
theorem leads_name (h : name.Splits first more tail) {accepts : Char → Bool}
    (haccepts : ∀ c, Text.isWord c = true → accepts c = true)
    (hstop : (tail ++ rest).head?.any accepts = false) (hs : s.cursor.rest = name.chars ++ rest) :
    (Pattern.seq (.char isNameStart) (.run accepts)).Leads s
      (s.after (first :: more) (tail ++ rest)) := by
  have hrest : s.cursor.rest = first :: (more ++ (tail ++ rest)) := by
    rw [hs, h.chars, List.cons_append, List.append_assoc]
  have hrun := leads_run (s := s.after [first] (more ++ (tail ++ rest)))
    (fun c hc => haccepts c (h.more c hc)) hstop rfl
  rw [Progress.after_after] at hrun
  exact (leads_char h.first hrest).seq hrun

theorem fails_name (h : name.front? = none) {accepts : Char → Bool}
    (hs : s.cursor.rest = name.chars ++ rest) :
    (Pattern.group "name" (.seq (.char isNameStart) (.run accepts))).Fails s := by
  apply Fails.group
  apply Fails.seq
  apply fails_char
  rw [hs]
  exact Identifier.head?_isNameStart h rest

/-- However much of a name is read, it goes on if it has other than word characters. -/
theorem mem_chars_of_mem_ways_name (h : name.Splits first more tail) (htail : tail ≠ [])
    (hs : s.cursor.rest = name.chars ++ rest)
    (ht : t ∈ ways (.group "name" (.seq (.char isNameStart) (.run Text.isWord))) s) :
    ∃ c ∈ name.chars, ∃ cs, t.cursor.rest = c :: cs := by
  have hrest : s.cursor.rest = first :: (more ++ (tail ++ rest)) := by
    rw [hs, h.chars, List.cons_append, List.append_assoc]
  have hstop : (tail ++ rest).head?.any Text.isWord = false := by
    cases tail with
    | nil => exact absurd rfl htail
    | cons c cs => exact h.stop
  rw [ways] at ht
  obtain ⟨u, hu, rfl⟩ := List.mem_map.1 ht
  rw [ways, ways_char h.first hrest, List.flatMap_singleton] at hu
  obtain ⟨offset, prior, left, hleft, rfl⟩ := exists_suffix_of_mem_ways_run hstop rfl hu
  -- What is left of the word characters, or else the first character after them.
  have hmem : ∀ c ∈ left ++ tail, c ∈ name.chars := by
    intro c hc
    rw [h.chars]
    rcases List.mem_append.1 hc with hc | hc
    · exact List.mem_cons_of_mem _ (List.mem_append_left _ (hleft.subset hc))
    · exact List.mem_cons_of_mem _ (List.mem_append_right _ hc)
  cases hboth : left ++ tail with
  | nil => exact absurd (List.append_eq_nil_iff.1 hboth).2 htail
  | cons c cs =>
    refine ⟨c, hmem c (by simp [hboth]), cs ++ rest, ?_⟩
    dsimp only
    rw [← List.append_assoc, hboth]
    rfl

/-- The line of a type, taken apart. -/
theorem typeFront_append (n : Nat) (name : Identifier) (rest : List Char) :
    typeFront n name ++ rest =
      List.replicate n ' ' ++ ("struct".toList ++ ' ' :: (name.chars ++ rest)) := by
  simp [typeFront]

theorem functionFront_append (n : Nat) (name : Identifier) (rest : List Char) :
    functionFront n name ++ rest =
      List.replicate n ' ' ++ ("func".toList ++ ' ' :: (name.chars ++ rest)) := by
  simp [functionFront]

theorem matchHead?_typeHead (n : Nat) (h : name.Splits first more tail) :
    ∃ m, typeHead.matchHead? (typeFront n name ++ [' ', '\x7b']) = some m ∧
      m.string "name" = String.ofList (first :: more) := by
  have hstop : (tail ++ [' ', '\x7b']).head?.any (fun c => Text.isWord c || c == '.') = false := by
    cases tail with
    | nil => rfl
    | cons c cs =>
      have hword : Text.isWord c = false := h.stop
      have hdot : c ≠ '.' := name.ne (by simp [h.chars]) rfl
      simp [hword, hdot]
  have hname : name.chars ++ [' ', '\x7b'] = first :: more ++ (tail ++ [' ', '\x7b']) := by
    simp [h.chars]
  have hhead : typeHead.Leads ⟨.start (typeFront n name ++ [' ', '\x7b']), []⟩ _ :=
    .seq (.seq (.seq (.seq (.seq (leads_indent (typeFront_append n name _) rfl)
      (by exact Fails.many rfl))
      (by exact Fails.many rfl))
      ((leads_lit "struct" rfl).alt _))
      (leads_blank (name.head?_isBlank _) rfl))
      ((leads_name h (fun c hc => by rw [hc]; rfl) hstop rfl).group "name")
  exact ⟨_, matchHead?_of_leads hhead, Match.string_group _ _ _ hname⟩

theorem matchHead?_typeHead_unread (n : Nat) (h : name.front? = none) :
    typeHead.matchHead? (typeFront n name ++ [' ', '\x7b']) = none := by
  apply matchHead?_of_fails
  apply fails_seq_assoc.2
  apply fails_seq_assoc.2
  apply fails_seq_assoc.2
  apply fails_seq_assoc.2
  refine fails_after_indent (typeFront_append n name _) rfl
    (fun _ _ _ => .many_seq rfl (.many_seq rfl (by apply Fails.seq; rfl))) fun _ _ => ?_
  refine .many_seq rfl (.many_seq rfl (fails_seq_of_ways_eq rfl ?_))
  exact fails_seq_of_ways_eq (ways_blank (name.head?_isBlank _) rfl) (fails_name h rfl)

theorem typeName?_type (n : Nat) (name : Identifier) :
    typeName? (typeFront n name ++ [' ', '\x7b']) = name.asType? := by
  rw [typeName?, Identifier.asType?]
  cases hfront : name.front? with
  | none =>
    rw [matchHead?_typeHead_unread n hfront]
    rfl
  | some front =>
    obtain ⟨first, more, tail, hsplits, rfl⟩ := Identifier.exists_splits hfront
    obtain ⟨m, hm, hname⟩ := matchHead?_typeHead n hsplits
    rw [hm, Option.bind_some, Option.map_some, Option.filter_some]
    dsimp only
    rw [hname]
    cases ["func", "var", "let", "subscript"].contains (String.ofList (first :: more)) <;> rfl

/-- Neither the head of a function nor a closing brace names a type. -/
theorem typeName?_eq_none (n : Nat)
    (h : (∃ more, rest = "func".toList ++ ' ' :: more) ∨ rest = ['\x7d']) :
    typeName? (List.replicate n ' ' ++ rest) = none := by
  have hfails : typeHead.Fails ⟨.start (List.replicate n ' ' ++ rest), []⟩ := by
    apply Fails.seq
    apply Fails.seq
    apply fails_seq_assoc.2
    apply fails_seq_assoc.2
    rcases h with ⟨more, rfl⟩ | rfl
    all_goals
      exact fails_after_indent rfl rfl (fun _ _ _ => .many_seq rfl (.many_seq rfl rfl)) fun _ _ =>
        .many_seq rfl (.many_seq rfl rfl)
  rw [typeName?, matchHead?_of_fails hfails, Option.bind_none]

theorem matchHead?_functionHead (n : Nat) (h : name.Splits first more []) (rest : List Char) :
    ∃ m, functionHead.matchHead? (functionFront n name ++ '(' :: rest) = some m ∧
      m.string "name" = name.string ∧
      m.whole.stop.offset = Text.size (functionFront n name ++ ['(']) := by
  have hchars : name.chars = first :: more := by
    rw [h.chars, List.append_nil]
  have hhead : functionHead.Leads ⟨.start (functionFront n name ++ '(' :: rest), []⟩ _ :=
    .seq
      (.seq (.seq (.seq (.seq (.seq (.seq (.seq (leads_indent (functionFront_append n name _) rfl)
      (by exact Fails.many rfl))
      (by exact Fails.many rfl))
      (leads_keyword "func" (name.head?_isBlank _) rfl))
      ((leads_name h (fun c hc => hc) rfl rfl).group "name"))
      (by exact leads_run_nil rfl))
      (by exact Fails.opt rfl))
      (by exact leads_run_nil rfl))
      (leads_char (c := '(') rfl rfl)
  refine ⟨_, matchHead?_of_leads hhead, ?_, hhead.offset ?_⟩
  · rw [Identifier.string, hchars]
    exact Match.string_group _ _ _ (by rw [← hchars]; rfl)
  · simp [Progress.after]

/-- At a character of a name no parameters start. -/
theorem fails_parameters {c : Char} {cs : List Char} (hc : isIdentifierChar c = true)
    (hs : s.cursor.rest = c :: cs) :
    (Pattern.seq gap (.seq (.opt (.seq (.seq (one '<') (.run (· != '>'))) (one '>')))
      (.seq gap (one '(')))).Fails s := by
  have hgap : ways gap s = [s] := by
    apply ways_run_nil
    rw [hs]
    exact isBlank_of_isIdentifierChar hc
  have hone : ∀ d, isIdentifierChar d = false → (one d).Fails s := by
    intro d hd
    apply fails_char
    rw [hs]
    exact beq_eq_false_iff_ne.2 (Text.ne_of_class hc hd)
  have hopen : (Pattern.seq (.seq (one '<') (.run (· != '>'))) (one '>')).Fails s :=
    ((hone '<' rfl).seq _).seq _
  exact fails_seq_of_ways_eq hgap
    (fails_seq_of_ways_eq hopen.ways_opt (fails_seq_of_ways_eq hgap (hone '(' rfl)))

theorem matchHead?_functionHead_unread (n : Nat) (h : name.asFunction? = none) (rest : List Char) :
    functionHead.matchHead? (functionFront n name ++ rest) = none := by
  apply matchHead?_of_fails
  apply fails_seq_assoc.2
  apply fails_seq_assoc.2
  apply fails_seq_assoc.2
  apply fails_seq_assoc.2
  apply fails_seq_assoc.2
  apply fails_seq_assoc.2
  apply fails_seq_assoc.2
  refine fails_after_indent (functionFront_append n name _) rfl
    (fun _ _ _ => .many_seq rfl (.many_seq rfl (by apply Fails.seq; rfl))) fun _ _ => ?_
  refine .many_seq rfl (.many_seq rfl
    (fails_seq_of_ways_eq (ways_keyword "func" (name.head?_isBlank _) rfl) ?_))
  rcases Identifier.asFunction?_eq_none h with hfront | ⟨first, more, tail, hsplits, htail⟩
  · exact (fails_name hfront rfl).seq _
  · rw [fails_seq_iff]
    intro t ht
    obtain ⟨c, hc, cs, hcs⟩ := mem_chars_of_mem_ways_name hsplits htail rfl ht
    exact fails_parameters (name.isIdentifierChar c hc) hcs

/-- Neither the head of a type nor a closing brace is the head of a function. -/
theorem matchHead?_functionHead_eq_none (n : Nat)
    (h : (∃ more, rest = "struct".toList ++ more) ∨ rest = ['\x7d']) :
    functionHead.matchHead? (List.replicate n ' ' ++ rest) = none := by
  apply matchHead?_of_fails
  apply Fails.seq
  apply Fails.seq
  apply Fails.seq
  apply Fails.seq
  apply Fails.seq
  apply fails_seq_assoc.2
  apply fails_seq_assoc.2
  rcases h with ⟨more, rfl⟩ | rfl
  all_goals
    exact fails_after_indent rfl rfl (fun _ _ _ => .many_seq rfl (.many_seq rfl rfl)) fun _ _ =>
      .many_seq rfl (.many_seq rfl rfl)

end Heads

/-! ### The written lines -/

variable {width level : Nat} {name : Identifier}

theorem isOutlineChar_of_isIdentifierChar {c : Char} (h : isIdentifierChar c = true) :
    isOutlineChar c = true := by
  rw [isIdentifierChar, Bool.or_eq_true, Bool.and_eq_true] at h
  rcases h with h | h
  · exact isOutlineChar_of_isWord h
  · rw [isOutlineChar, h.1, Bool.or_true, Bool.true_or]

theorem isOutlineChar_of_mem_writeLine (width : Nat) (l : OutlineLine Identifier Identifier) :
    ∀ c ∈ writeLine width l, isOutlineChar c = true := by
  have hindent : ∀ n, ∀ c ∈ List.replicate n ' ', isOutlineChar c = true := by
    intro n c hc
    rw [List.eq_of_mem_replicate hc]
    rfl
  have hname : ∀ name : Identifier, ∀ c ∈ name.chars, isOutlineChar c = true :=
    fun name c hc => isOutlineChar_of_isIdentifierChar (name.isIdentifierChar c hc)
  have hword : ∀ cs : List Char, cs.all isOutlineChar = true → ∀ c ∈ cs, isOutlineChar c = true :=
    fun cs hcs => List.all_eq_true.1 hcs
  cases l with
  | filler level =>
    rw [writeLine, List.forall_mem_append]
    exact ⟨hindent _, hword ['\x7d'] rfl⟩
  | head level item =>
    cases item with
    | type name =>
      rw [writeLine, typeFront, List.forall_mem_append, List.forall_mem_append,
        List.forall_mem_append, List.forall_mem_cons]
      exact ⟨⟨hindent _, hword "struct".toList rfl, rfl, hname name⟩, hword [' ', '\x7b'] rfl⟩
    | function name =>
      rw [writeLine, callLine, functionFront, List.forall_mem_append, List.forall_mem_append,
        List.forall_mem_append, List.forall_mem_cons]
      exact ⟨⟨hindent _, hword "func".toList rfl, rfl, hname name⟩,
        hword ['(', ')', ' ', '\x7b'] rfl⟩

theorem plain_of_isOutlineChar {c : Char} (h : isOutlineChar c = true) : lexis.Plain c := by
  have hc : c ≠ '/' := Text.ne_of_class h rfl
  constructor
  · simp [lexis, List.isPrefixOf, Ne.symm hc]
  · simp [lexis, Ne.symm hc]
  · exact ⟨Text.ne_of_class h rfl, Text.ne_of_class h rfl, Text.ne_of_class h rfl⟩

theorem written_write (width : Nat) (o : Outline Identifier Identifier) :
    (SourceText.ofText lexis (write width o)).Written
    ((o.lines style 0).map (writeLine width)) := by
  apply SourceText.written_ofText fun c => plain_of_isOutlineChar
  · exact ⟨fun _ => rfl, fun _ => rfl, by decide⟩
  · intro line hline
    obtain ⟨l, -, rfl⟩ := List.mem_map.1 hline
    exact isOutlineChar_of_mem_writeLine width l

theorem isBlankLine_writeLine (width : Nat) (l : OutlineLine Identifier Identifier) :
    Text.isBlankLine (writeLine width l) = false := by
  rw [Text.isBlankLine, List.all_eq_false]
  cases l with
  | filler level => exact ⟨'\x7d', by simp [writeLine], by decide⟩
  | head level item =>
    refine ⟨'\x7b', ?_, by decide⟩
    cases item with
    | type name => simp [writeLine]
    | function name => simp [writeLine, callLine]

/-! ### Braces on the written lines -/

/-- The character changes no count. -/
def isInert (c : Char) : Bool :=
  isIdentifierChar c || c == ' '

theorem isInert_of_mem_spaces {n : Nat} : ∀ c ∈ List.replicate n ' ', isInert c = true := by
  intro c hc
  rw [List.eq_of_mem_replicate hc]
  rfl

theorem isInert_of_mem_front {n : Nat} {w : String} (hw : w.toList.all isInert = true)
    (name : Identifier) :
    ∀ c ∈ List.replicate n ' ' ++ (w.toList ++ ' ' :: name.chars), isInert c = true := by
  rw [List.forall_mem_append, List.forall_mem_append, List.forall_mem_cons]
  refine ⟨isInert_of_mem_spaces, List.all_eq_true.1 hw, rfl, fun c hc => ?_⟩
  rw [isInert, name.isIdentifierChar c hc, Bool.true_or]

theorem braceDepthAfter_inert {cs : List Char} (h : ∀ c ∈ cs, isInert c = true) (depth : Nat)
    (rest : List Char) :
    braceDepthAfter depth (cs ++ rest) = braceDepthAfter depth rest := by
  induction cs with
  | nil => rfl
  | cons c cs ih =>
    have hopen : c ≠ '\x7b' := Text.ne_of_class (h c (by simp)) rfl
    have hclose : c ≠ '\x7d' := Text.ne_of_class (h c (by simp)) rfl
    rw [← ih fun d hd => h d (by simp [hd]), List.cons_append, braceDepthAfter, List.foldl_cons,
      if_neg (by simpa using hopen), if_neg (by simpa using hclose), braceDepthAfter]

theorem foldl_step_inert {cs : List Char} (h : ∀ c ∈ cs, isInert c = true) (w : LineSpan.BraceWalk)
    (rest : List Char) :
    (cs ++ rest).foldl LineSpan.BraceWalk.step w = rest.foldl LineSpan.BraceWalk.step w := by
  induction cs with
  | nil => rfl
  | cons c cs ih =>
    have hc := h c (by simp)
    have hstep : w.step c = w := by
      have hopening : c ≠ '(' := Text.ne_of_class hc rfl
      have hclosing : c ≠ ')' := Text.ne_of_class hc rfl
      have hopen : c ≠ '\x7b' := Text.ne_of_class hc rfl
      have hclose : c ≠ '\x7d' := Text.ne_of_class hc rfl
      simp [LineSpan.BraceWalk.step, hopening, hclosing, hopen, hclose]
    rw [List.cons_append, List.foldl_cons, hstep, ih fun d hd => h d (by simp [hd])]

theorem braceDepthAfter_head (width level : Nat) (item : OutlineItem Identifier Identifier)
    (depth : Nat) :
    braceDepthAfter depth (writeLine width (.head level item)) = depth + 1 := by
  cases item with
  | type name =>
    rw [writeLine, typeFront, braceDepthAfter_inert (isInert_of_mem_front rfl name)]
    rfl
  | function name =>
    rw [writeLine, callLine, functionFront, braceDepthAfter_inert (isInert_of_mem_front rfl name)]
    rfl

theorem braceDepthAfter_filler (width level depth : Nat) :
    braceDepthAfter (depth + 1) (writeLine width (.filler level)) = depth := by
  rw [writeLine, braceDepthAfter_inert isInert_of_mem_spaces]
  rfl

theorem block_eq (level : Nat) (body : Outline Identifier Identifier) :
    body.block style level = body.lines style (level + 1) ++ [.filler (level + 1)] :=
  rfl

/-- At the start of each line as many braces are open as its level says. -/
theorem braceDepthsFrom_lines (width : Nat) (o : Outline Identifier Identifier) (level : Nat)
    (rest : List (List Char)) :
    braceDepthsFrom level ((o.lines style level).map (writeLine width) ++ rest) =
      (o.lines style level).map OutlineLine.level ++ braceDepthsFrom level rest := by
  induction o generalizing level rest with
  | nil => rfl
  | item head body next ihBody ihNext =>
    have hblock : ∀ rest, braceDepthsFrom (level + 1)
        ((body.block style level).map (writeLine width) ++ rest) =
        (body.block style level).map OutlineLine.level ++ braceDepthsFrom level rest := by
      intro rest
      rw [block_eq, List.map_append, List.append_assoc, ihBody, List.map_append, List.append_assoc,
        List.map_cons, List.map_nil, List.cons_append, List.nil_append, braceDepthsFrom,
        braceDepthAfter_filler]
      rfl
    rw [Outline.lines_item, List.map_cons, List.map_append, List.cons_append, braceDepthsFrom,
      braceDepthAfter_head, List.append_assoc, hblock, ihNext, List.map_cons, List.map_append,
      List.cons_append, List.append_assoc]
    rfl

/-! ### The walk over the written lines -/

section Written

variable {s : SourceText} {before after : List (List Char)}

/-- Where the head of a function is, if it stands on a line. -/
def headAt (before : List (List Char)) (n : Nat) (name : Identifier) : Head where
  name := name.string
  opening := Text.size (Text.ofLines before ++ functionFront n name)
  closing := Text.size (Text.ofLines before ++ functionFront n name) + 1

theorem head?_written
    (h : s.Written (before ++ writeLine width (.head level (.function name)) :: after))
    {text : String} (htext : name.asFunction? = some text) :
    head? s before.length (writeLine width (.head level (.function name))) =
      some (headAt before (width * level) name) := by
  obtain ⟨⟨first, more, hsplits⟩, -⟩ := Identifier.asFunction?_eq_some htext
  obtain ⟨m, hm, hname, hstop⟩ := matchHead?_functionHead (width * level) hsplits [')', ' ', '\x7b']
  have hline : functionHead.matchHead? (writeLine width (.head level (.function name))) = some m :=
    hm
  have hparen : Text.size ['('] = 1 := rfl
  have hopening : s.lineStart before.length + m.whole.stop.offset - 1 =
      Text.size (Text.ofLines before ++ functionFront (width * level) name) := by
    rw [h.lineStart, hstop, Text.size_append, Text.size_append, hparen]
    omega
  have hclosing := h.matchingParen? (by simp)
  simp only [head?, hline, Option.bind_eq_bind, Option.bind_some, hopening, hclosing, hname]
  rfl

theorem head?_eq_none {line : List Char} (h : functionHead.matchHead? line = none) (i : Nat) :
    head? s i line = none := by
  rw [head?, h]
  rfl

/-- What is reported of a declaration: its name, its scope and its line. -/
def report (d : Declaration) : String × ScopeKind × Nat :=
  (d.name, d.scope, d.line)

/-- What a walk over an outline finds, as it is reported. -/
def reportFound (e : (String × ScopeKind) × Nat × Identifier) : String × ScopeKind × Nat :=
  (e.1.1, e.1.2, e.2.1 + 1)

/-- A walk over the text follows a walk over the outline. -/
structure Follows (w : Walk) (v : OutlineWalk Identifier) : Prop where
  stack : w.stack = v.stack
  found : w.found.map report = v.found.map reportFound

theorem Follows.visit {w : Walk} {v : OutlineWalk Identifier}
    {l : OutlineLine Identifier Identifier} (hw : Follows w v)
    (h : s.Written (before ++ writeLine width l :: after)) (hline : v.line = before.length) :
    Follows (Swift.visit s w ((writeLine width l, before.length), l.level)) (v.visit style l) := by
  have hblank : ¬Text.isBlankLine (writeLine width l) = true := by
    rw [isBlankLine_writeLine]
    decide
  have hunit : ∀ level, style.unit * level = level := Nat.one_mul
  rw [Swift.visit, if_neg hblank, hw.stack]
  cases l with
  | filler level =>
    have htype : typeName? (writeLine width (.filler level)) = none :=
      typeName?_eq_none _ (.inr rfl)
    have hhead : head? s before.length (writeLine width (.filler level)) = none :=
      head?_eq_none (matchHead?_functionHead_eq_none _ (.inr rfl)) _
    rw [htype, hhead, OutlineWalk.visit, hunit]
    exact ⟨rfl, hw.found⟩
  | head level item =>
    rw [OutlineWalk.visit, hunit]
    cases item with
    | type name =>
      have htype : typeName? (writeLine width (.head level (.type name))) = name.asType? :=
        typeName?_type _ name
      have hhead : head? s before.length (writeLine width (.head level (.type name))) = none := by
        apply head?_eq_none
        rw [writeLine, typeFront_append]
        exact matchHead?_functionHead_eq_none _ (.inl ⟨_, rfl⟩)
      have hname : style.typeName? name = name.asType? := rfl
      rw [htype, hhead, OutlineWalk.read, hname]
      cases name.asType? with
      | some text => exact ⟨rfl, hw.found⟩
      | none => exact ⟨rfl, hw.found⟩
    | function name =>
      have htype : typeName? (writeLine width (.head level (.function name))) = none := by
        rw [writeLine, callLine, functionFront_append]
        exact typeName?_eq_none _ (.inl ⟨_, rfl⟩)
      have hname : style.functionName? name = name.asFunction? := rfl
      rw [htype, OutlineWalk.read, hname]
      cases htext : name.asFunction? with
      | none =>
        have hhead : head? s before.length (writeLine width (.head level (.function name))) =
          none :=
          head?_eq_none (matchHead?_functionHead_unread _ htext _) _
        rw [hhead]
        exact ⟨rfl, hw.found⟩
      | some text =>
        obtain ⟨-, rfl⟩ := Identifier.asFunction?_eq_some htext
        rw [head?_written h htext]
        refine ⟨rfl, ?_⟩
        dsimp only
        rw [List.map_cons, hw.found, ← hline]
        rfl

theorem follows_foldl (before : List (List Char)) {ls : List (OutlineLine Identifier Identifier)}
    {w : Walk} {v : OutlineWalk Identifier} (hw : Follows w v)
    (h : s.Written (before ++ ls.map (writeLine width))) (hline : v.line = before.length) :
    Follows
      ((((ls.map (writeLine width)).zipIdx before.length).zip (ls.map OutlineLine.level)).foldl
        (visit s) w)
      (ls.foldl (OutlineWalk.visit style) v) := by
  induction ls generalizing before w v with
  | nil => exact hw
  | cons l ls ih =>
    have hnext : (v.visit style l).line = (before ++ [writeLine width l]).length := by
      rw [OutlineWalk.line_visit, hline, List.length_append]
      rfl
    rw [List.map_cons] at h
    rw [List.map_cons, List.zipIdx_cons, List.map_cons, List.zip_cons_cons, List.foldl_cons,
      List.foldl_cons]
    have hrest := ih (before ++ [writeLine width l]) (hw.visit h hline)
      (by rwa [List.append_assoc]) hnext
    rwa [List.length_append] at hrest

end Written

theorem visit_nil (s : SourceText) (w : Walk) (i depth : Nat) : visit s w (([], i), depth) = w :=
  rfl

theorem map_report_found (width : Nat) (o : Outline Identifier Identifier) :
    (((SourceText.ofText lexis (write width o)).numberedLines.zip
        (braceDepths (SourceText.ofText lexis (write width o)).masked)).foldl
          (visit (.ofText lexis (write width o)))
        ⟨.empty, []⟩).found.map report =
      ((o.functions style .top 0).filterMap fun f => f.head.asFunction?.map fun name =>
        (f.place.qualify name, f.place.scope, f.line + 1)).reverse := by
  have hwritten := written_write width o
  have hfollows : Follows (((((o.lines style 0).map (writeLine width)).zipIdx 0).zip
      ((o.lines style 0).map OutlineLine.level)).foldl (visit (.ofText lexis (write width o)))
        ⟨.empty, []⟩)
      ((o.lines style 0).foldl (OutlineWalk.visit style) .start) :=
    follows_foldl [] ⟨rfl, rfl⟩ hwritten rfl
  have hdepths : braceDepths (SourceText.ofText lexis (write width o)).masked =
      (o.lines style 0).map OutlineLine.level ++ [0] := by
    rw [braceDepths, hwritten.masked, Text.pieces_ofLines hwritten.newline, braceDepthsFrom_lines]
    rfl
  have hlength : (((o.lines style 0).map (writeLine width)).zipIdx 0).length =
      ((o.lines style 0).map OutlineLine.level).length := by
    rw [List.length_zipIdx, List.length_map, List.length_map]
  rw [SourceText.numberedLines, hwritten.maskedLines, hdepths, List.zipIdx_append,
    List.zip_append hlength, List.foldl_append, List.zipIdx_cons, List.zip_cons_cons,
    List.foldl_cons, visit_nil, List.zipIdx_nil, List.zip_nil_left, List.foldl_nil, hfollows.found,
    o.found_lines, List.map_reverse, List.map_filterMap]
  congr 2
  funext f
  rw [OutlineFunction.found?, Option.map_map]
  rfl

/-! ### Spans -/

section Span
open LineSpan

theorem foldl_step_head (width level : Nat) (item : OutlineItem Identifier Identifier)
    (braces : Nat) (opened : Bool) :
    (writeLine width (.head level item)).foldl BraceWalk.step ⟨0, braces, opened, false⟩ =
      ⟨0, braces + 1, true, false⟩ := by
  cases item with
  | type name =>
    rw [writeLine, typeFront, foldl_step_inert (isInert_of_mem_front rfl name)]
    rfl
  | function name =>
    rw [writeLine, callLine, functionFront, foldl_step_inert (isInert_of_mem_front rfl name)]
    rfl

theorem foldl_step_filler (width level braces : Nat) :
    (writeLine width (.filler level)).foldl BraceWalk.step ⟨0, braces + 1, true, false⟩ =
      ⟨0, braces, true, braces == 0⟩ := by
  rw [writeLine, foldl_step_inert isInert_of_mem_spaces]
  rfl

/-- Inside a body the lines of an outline open and close braces of their own. -/
theorem braceEnd?_lines (width : Nat) (o : Outline Identifier Identifier) (level braces j : Nat)
    (rest : List (List Char)) :
    braceEnd? ⟨0, braces + 1, true, false⟩ j ((o.lines style level).map (writeLine width) ++ rest) =
      braceEnd? ⟨0, braces + 1, true, false⟩ (j + (o.lines style level).length) rest := by
  induction o generalizing level braces j rest with
  | nil => rfl
  | item head body next ihBody ihNext =>
    have hblock : ∀ j rest,
        braceEnd? ⟨0, braces + 1 + 1, true, false⟩ j
          ((body.block style level).map (writeLine width) ++ rest) =
          braceEnd? ⟨0, braces + 1, true, false⟩ (j + (body.block style level).length) rest := by
      intro j rest
      rw [block_eq, List.map_append, List.append_assoc, ihBody, List.map_cons, List.map_nil,
        List.cons_append, List.nil_append, braceEnd?, foldl_step_filler, List.length_append]
      rfl
    rw [Outline.lines_item, List.map_cons, List.map_append, List.cons_append, braceEnd?,
      foldl_step_head]
    dsimp only
    rw [if_neg (by decide), if_pos (by simp), List.append_assoc, hblock, ihNext, List.length_cons,
      List.length_append]
    congr 1
    omega

/-- The closing brace of a function is that of its head. -/
theorem braceEnd?_function (width level : Nat) (name : Identifier)
    (body : Outline Identifier Identifier) (j : Nat) (rest : List (List Char)) :
    braceEnd? .start j ((.head level (.function name) :: body.block style level).map
      (writeLine width) ++ rest) =
      some (j + (body.block style level).length) := by
  rw [List.map_cons, List.cons_append, braceEnd?, BraceWalk.start, foldl_step_head]
  dsimp only
  rw [if_neg (by decide), if_pos (by simp), block_eq, List.map_append, List.append_assoc,
    braceEnd?_lines, List.map_cons, List.cons_append, braceEnd?, foldl_step_filler,
    List.length_append, List.length_singleton]
  dsimp only
  rw [if_pos (by decide)]
  congr 1
  omega

theorem byBraces?_write {width : Nat} {o : Outline Identifier Identifier}
    {f : OutlineFunction Identifier Identifier} (hf : f ∈ o.functions style .top 0) :
    byBraces? (SourceText.ofText lexis (write width o)).maskedLines f.line =
      some ⟨f.line, f.line + (f.lines style).length - 1⟩ := by
  obtain ⟨before, after, hline, hmasked, -⟩ := (written_write width o).exists_function hf
  have hend := braceEnd?_function width f.place.level f.head f.body f.line
    (after.map (writeLine width) ++ [[]])
  rw [List.map_cons, List.cons_append] at hend
  rw [byBraces?, hmasked, hline, List.drop_left, ← hline, OutlineFunction.lines, List.map_cons,
    List.cons_append]
  dsimp only
  rw [hend]
  rfl

end Span

/-- An outline is read back from its text: the first function of each name that is read is declared
with its scope and its line. -/
theorem map_report_declarations (width : Nat) (o : Outline Identifier Identifier) :
    (declarations (write width o)).map report =
      ((o.functions style .top 0).filterMap fun f => f.head.asFunction?.map fun name =>
        (f.place.qualify name, f.place.scope, f.line + 1)).eraseDupsBy (fun a b => a.1 == b.1) := by
  rw [declarations, Declaration.map_firstOfEachName (f := report) fun _ => rfl, List.map_reverse,
    map_report_found width o, List.reverse_reverse]

/-! ### Outlines that are read as they are written -/

/-- The style in which every item is known by its name as it is written. -/
def literalStyle : OutlineStyle Identifier Identifier :=
  { style with
    typeName? := fun name => some name.string
    functionName? := fun name => some name.string }

/-- A name is plain if it starts with a letter of ASCII or an underscore and goes on with word
characters. -/
def Identifier.isPlain (name : Identifier) : Bool :=
  name.chars.head?.any isNameStart && name.chars.all Text.isWord

/-- The name of the item is plain, and that of a type is none of the words that are left out. -/
def isPlainItem : OutlineItem Identifier Identifier → Bool
  | .type name => name.isPlain && !(["func", "var", "let", "subscript"].contains name.string)
  | .function name => name.isPlain

theorem Identifier.front?_of_isPlain (h : name.isPlain = true) : name.front? = some name.chars := by
  obtain ⟨hstart, hword⟩ := Bool.and_eq_true_iff.1 h
  rw [front?, if_pos hstart, List.takeWhile_eq_self_iff.2 (List.all_eq_true.1 hword)]

theorem Identifier.asFunction?_of_isPlain (h : name.isPlain = true) :
    name.asFunction? = some name.string := by
  rw [asFunction?, front?_of_isPlain h, Option.filter_some, if_pos (beq_self_eq_true _)]
  rfl

theorem inside_literalStyle {item : OutlineItem Identifier Identifier}
    (h : isPlainItem item = true) (place : OutlinePlace) :
    place.inside literalStyle item = place.inside style item := by
  cases item with
  | type name =>
    obtain ⟨hplain, hword⟩ := Bool.and_eq_true_iff.1 h
    have hname : style.typeName? name = some name.string := by
      change name.asType? = some name.string
      rw [Identifier.asType?, Identifier.front?_of_isPlain hplain, Option.map_some,
        Option.filter_some]
      exact if_pos hword
    rw [OutlinePlace.inside, OutlinePlace.inside, hname]
    rfl
  | function name =>
    have hname : style.functionName? name = some name.string :=
      Identifier.asFunction?_of_isPlain h
    rw [OutlinePlace.inside, OutlinePlace.inside, hname]
    rfl

/-- Where all names are plain, all functions are known by their names. -/
theorem filterMap_functions {o : Outline Identifier Identifier}
    (h : ∀ item ∈ o.items, isPlainItem item = true) :
    ((o.functions style .top 0).filterMap fun f => f.head.asFunction?.map fun name =>
      (f.place.qualify name, f.place.scope, f.line + 1)) =
      (o.functions literalStyle .top 0).map fun f =>
        (f.place.qualify f.head.string, f.place.scope, f.line + 1) := by
  have hfills : literalStyle.fills = style.fills := rfl
  have hfunctions : o.functions literalStyle .top 0 = o.functions style .top 0 :=
    Outline.functions_congr hfills (fun item hitem => inside_literalStyle (h item hitem)) .top 0
  rw [hfunctions, ← List.filterMap_eq_map]
  refine List.filterMap_congr fun f hf => ?_
  rw [Identifier.asFunction?_of_isPlain (h _ (Outline.function_mem_items hf))]
  rfl

/-- The declarations are those of the outline, as far as names are read, and every function covers
the lines from its head to its closing brace, whether its name is read or not. An outline with plain
names only is read back as it was written. -/
theorem declarations_write_braced (width : Nat) (o : Outline Identifier Identifier) :
    (declarations (write width o)).map report =
        ((o.functions style .top 0).filterMap fun f => f.head.asFunction?.map fun name =>
          (f.place.qualify name, f.place.scope, f.line + 1)).eraseDupsBy (fun a b => a.1 == b.1) ∧
      ((∀ item ∈ o.items, isPlainItem item = true) →
        (declarations (write width o)).map report =
          ((o.functions literalStyle .top 0).map fun f =>
            (f.place.qualify f.head.string, f.place.scope, f.line + 1)).eraseDupsBy
              (fun a b => a.1 == b.1)) ∧
      ∀ f ∈ o.functions style .top 0,
        LineSpan.byBraces? (Text.pieces (mask lexis (write width o))) f.line =
            some ⟨f.line, f.line + (f.lines style).length - 1⟩ ∧
          ((Text.pieces (mask lexis (write width o))).drop f.line).take (f.lines style).length =
            (f.lines style).map (writeLine width) := by
  refine ⟨map_report_declarations width o, fun h => ?_, fun f hf => ?_⟩
  · rw [map_report_declarations, filterMap_functions h]
  · exact ⟨byBraces?_write hf, (written_write width o).take_drop_function hf⟩

/-- A type with a method, and in the body of that a function whose name ends in an accented
letter. -/
def nested : Outline Identifier Identifier :=
  .item (.type ⟨['A'], by decide, List.all_eq_true.1 rfl⟩)
    (.item (.function ⟨['f'], by decide, List.all_eq_true.1 rfl⟩)
      (.item (.function ⟨['g', 'é'], by decide, List.all_eq_true.1 rfl⟩) .nil .nil) .nil) .nil

theorem declarations_write_braced_nested :
    (∀ item ∈ nested.items, isPlainItem item = true) ∧
      (declarations (write 2 nested)).map report =
        [("A.f", .type, 2), ("A.gé", .nested, 3)] := by
  have hplain : ∀ item ∈ nested.items, isPlainItem item = true := List.all_eq_true.1 (by decide)
  refine ⟨hplain, ((declarations_write_braced 2 nested).2.1 hplain).trans ?_⟩
  decide

/-- A type with an accented name, and a method in it. -/
def accented : Outline Identifier Identifier :=
  .item (.type ⟨['é'], by decide, List.all_eq_true.1 rfl⟩)
    (.item (.function ⟨['f'], by decide, List.all_eq_true.1 rfl⟩) .nil .nil) .nil

/-- A type whose name starts with an accented letter is not read, and its method is declared outside
of all types. -/
theorem accented_type_unread :
    write 4 accented = "struct é \x7b\n    func f() \x7b\n    \x7d\n\x7d\n".toList ∧
      (declarations (write 4 accented)).map report = [("f", .module, 2)] ∧
      (declarations (write 4 accented)).map report ≠
        ((accented.functions literalStyle .top 0).map fun f =>
          (f.place.qualify f.head.string, f.place.scope, f.line + 1)).eraseDupsBy
            (fun a b => a.1 == b.1) := by
  have hreport : (declarations (write 4 accented)).map report = [("f", .module, 2)] := by
    rw [map_report_declarations]
    decide
  refine ⟨rfl, hreport, ?_⟩
  rw [hreport]
  decide

end CodeSurvey.Swift
