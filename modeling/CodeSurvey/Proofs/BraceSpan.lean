import CodeSurvey.Proofs.Text.Cut
import CodeSurvey.Proofs.Text.Word
import CodeSurvey.Span

/-!
# Spans by braces

The walk to the end of a function counts braces from the first one that opens, and looks for a body
only while no parenthesis is open. So it passes over the parameters line by line, unless a brace
stands among them: then it takes the first pair of braces there for the body. Where the body opens
on a later line than the parameters close, an arrow in front of the closing parenthesis is taken for
a body without braces.
-/
namespace CodeSurvey

namespace Text

theorem not_mem_lastLine (cs : List Char) : '\n' ∉ lastLine cs := by
  intro hmem
  simpa using List.mem_rtakeWhile_imp hmem

theorem lastLine_lastLine_append (cs rest : List Char) :
    lastLine (lastLine cs ++ rest) = lastLine (cs ++ rest) := by
  induction cs using line_induction with
  | last line hline => rw [lastLine_of_not_mem hline]
  | next line cs _ ih =>
    rw [lastLine_newline, ih, List.append_assoc, List.cons_append, lastLine_newline]

/-- The lines from the one on that the part in front ends on. -/
theorem drop_pieces_append (before cs : List Char) :
    (pieces (before ++ cs)).drop (before.count '\n') = pieces (lastLine before ++ cs) := by
  induction before using line_induction with
  | last line hline => rw [List.count_eq_zero.2 hline, List.drop_zero, lastLine_of_not_mem hline]
  | next line before hline ih =>
    rw [List.append_assoc, List.cons_append, pieces_line hline, List.count_append,
      List.count_eq_zero.2 hline, List.count_cons_self, Nat.zero_add, List.drop_succ_cons, ih,
      lastLine_newline]

theorem trimEnd_cons {c : Char} (hc : isBlank c = false) (cs : List Char) :
    trimEnd (c :: cs) = c :: trimEnd cs := by
  rw [trimEnd, trimEnd, dropEndWhile, dropEndWhile, List.reverse_cons, List.dropWhile_append]
  split
  · rename_i hempty
    rw [List.isEmpty_iff.1 hempty, List.dropWhile_cons_of_neg (by simp [hc])]
    rfl
  · rw [List.reverse_append]
    rfl

/-- Two parts in front that are of one size are equal. -/
theorem append_inj_of_size {before cs front ds : List Char} (h : before ++ cs = front ++ ds)
    (hsize : size before = size front) : before = front ∧ cs = ds := by
  have hrest := dropBytes?_append before cs
  rw [h, hsize, dropBytes?_append, Option.some_inj] at hrest
  subst hrest
  exact ⟨List.append_cancel_right h, rfl⟩

end Text

theorem closes_of_matchingParen? {before params rest : List Char}
    (h : matchingParen? (before ++ '(' :: (params ++ ')' :: rest)) (Text.size before) =
      some (Text.size (before ++ '(' :: params))) : Closes 1 params := by
  obtain ⟨front, inner, after, htext, hfront, hclosing, hcloses⟩ := matchingParen?_eq_some_iff.1 h
  obtain ⟨rfl, hrest⟩ := Text.append_inj_of_size htext hfront.symm
  have hparen : Char.utf8Size '(' = 1 := rfl
  rw [Text.size_append, Text.size_cons, hparen, Nat.add_assoc, Nat.add_left_cancel_iff,
    Nat.add_left_cancel_iff] at hclosing
  rwa [(Text.append_inj_of_size (List.cons.inj hrest).2 hclosing).1]

/-- Every brace has its partner, whatever else stands there. -/
inductive Balanced : List Char → Prop
  | nil : Balanced []
  | other {c : Char} {cs : List Char} (hopen : c ≠ '\x7b') (hclose : c ≠ '\x7d') (h : Balanced cs) :
    Balanced (c :: cs)
  | pair {inner rest : List Char} (hinner : Balanced inner) (hrest : Balanced rest) :
      Balanced ('\x7b' :: (inner ++ '\x7d' :: rest))

theorem Balanced.of_not_mem {cs : List Char} (hopen : '\x7b' ∉ cs) (hclose : '\x7d' ∉ cs) :
    Balanced cs := by
  induction cs with
  | nil => exact .nil
  | cons c cs ih =>
    rw [List.mem_cons, not_or] at hopen hclose
    exact .other (Ne.symm hopen.1) (Ne.symm hclose.1) (ih hopen.2 hclose.2)

/-- The first brace opens a pair. -/
theorem Balanced.exists_first {cs : List Char} (h : Balanced cs) (hmem : '\x7b' ∈ cs) :
    ∃ front inner rest, cs = front ++ '\x7b' :: (inner ++ '\x7d' :: rest) ∧ '\x7b' ∉ front ∧
    Balanced inner := by
  induction h with
  | nil => cases hmem
  | @other c cs hopen hclose _ ih =>
    obtain ⟨front, inner, rest, rfl, hfront, hinner⟩ :=
      ih ((List.mem_cons.1 hmem).resolve_left (Ne.symm hopen))
    exact ⟨c :: front, inner, rest, rfl, by simp [hfront, Ne.symm hopen], hinner⟩
  | @pair inner rest hinner _ _ _ => exact ⟨[], inner, rest, rfl, by simp, hinner⟩

namespace LineSpan

/-! ### The walk character by character -/

namespace BraceWalk

variable {w : BraceWalk} {c : Char} {cs rest : List Char}

/-- No brace has been opened yet. -/
def signature (parens : Nat) : BraceWalk :=
  ⟨parens, 0, false, false⟩

/-- At least one brace is open. -/
def inside (parens : Int) (braces : Nat) : BraceWalk :=
  ⟨parens, braces + 1, true, false⟩

theorem foldl_step_of_closed (h : w.closed = true) (cs : List Char) : cs.foldl step w = w := by
  induction cs with
  | nil => rfl
  | cons c cs ih => rw [List.foldl_cons, step, if_pos h, ih]

theorem step_other (hopen : c ≠ '(') (hclose : c ≠ ')') (hbrace : c ≠ '\x7b')
    (hend : c = '\x7d' → w.opened = false) :
    w.step c = w := by
  have hend : (c == '\x7d' && w.opened) = false := by
    by_cases hc : c = '\x7d'
    · simp [hend hc]
    · simp [hc]
  simp [step, hopen, hclose, hbrace, hend]

theorem step_newline (w : BraceWalk) : w.step '\n' = w :=
  step_other (by decide) (by decide) (by decide) (by simp)

/-- Wherever a line ends the walk goes on to the next one without a look at what was on the line. -/
def KeepsOn : BraceWalk → List Char → Prop
  | _, [] => True
  | w, c :: cs =>
    (c = '\n' → w.closed = false ∧ (w.opened || 0 < w.parens) = true) ∧ KeepsOn (w.step c) cs

theorem keepsOn_append :
    KeepsOn w (cs ++ rest) ↔ KeepsOn w cs ∧ KeepsOn (cs.foldl step w) rest := by
  induction cs generalizing w with
  | nil => simp [KeepsOn]
  | cons c cs ih => rw [List.cons_append, KeepsOn, ih, KeepsOn, List.foldl_cons, and_assoc]

theorem keepsOn_of_not_mem (h : '\n' ∉ cs) : KeepsOn w cs := by
  induction cs generalizing w with
  | nil => trivial
  | cons c cs ih =>
    rw [List.mem_cons, not_or] at h
    exact ⟨fun hc => absurd hc.symm h.1, ih h.2⟩

/-- What has neither parentheses nor an opening brace is passed over in front of the body. -/
theorem foldl_step_signature {parens : Nat} (h : ∀ c ∈ cs, c ≠ '(' ∧ c ≠ ')' ∧ c ≠ '\x7b') :
    cs.foldl step (signature parens) = signature parens := by
  induction cs with
  | nil => rfl
  | cons c cs ih =>
    obtain ⟨hopen, hclose, hbrace⟩ := h c (by simp)
    rw [List.foldl_cons, step_other hopen hclose hbrace fun _ => rfl,
      ih fun d hd => h d (by simp [hd])]

/-- As long as parentheses are open and no brace is, the walk keeps on. -/
theorem keepsOn_signature {front more : List Char} {depth : Nat}
    (hcloses : Closes depth (front ++ more)) (hpos : 0 < depth) (hbrace : '\x7b' ∉ front) :
    ∃ left : Nat, 0 < left ∧ Closes left more ∧ KeepsOn (signature depth) front ∧
      front.foldl step (signature depth) = signature left := by
  induction front generalizing depth with
  | nil => exact ⟨depth, hpos, hcloses, trivial, rfl⟩
  | cons c front ih =>
    rw [List.mem_cons, not_or] at hbrace
    rw [List.cons_append, Closes] at hcloses
    have hline : c = '\n' → (signature depth).closed = false ∧
        ((signature depth).opened || 0 < (signature depth).parens) = true := by
      intro _
      simpa [signature] using hpos
    -- a step leads to a signature with `next` open parentheses
    have hstep : ∀ next : Nat, 0 < next → Closes next (front ++ more) →
        (signature depth).step c = signature next →
          ∃ left : Nat, 0 < left ∧ Closes left more ∧ KeepsOn (signature depth) (c :: front) ∧
            (c :: front).foldl step (signature depth) = signature left := by
      intro next hnext hmore hc
      obtain ⟨left, hleft, hmore, hkeeps, hwalk⟩ := ih hmore hnext hbrace.2
      refine ⟨left, hleft, hmore, ⟨hline, ?_⟩, ?_⟩
      · rwa [hc]
      · rwa [List.foldl_cons, hc]
    by_cases hopen : c = '('
    · subst hopen
      rw [if_pos rfl] at hcloses
      exact hstep (depth + 1) (by omega) hcloses rfl
    · by_cases hclose : c = ')'
      · subst hclose
        rw [if_neg (by decide), if_pos rfl] at hcloses
        refine hstep (depth - 1) (by omega) hcloses.2 ?_
        have hparens : (depth : Int) - 1 = ((depth - 1 : Nat) : Int) := by omega
        rw [signature, signature, ← hparens]
        rfl
      · rw [if_neg hopen, if_neg hclose] at hcloses
        exact hstep depth hpos hcloses (step_other hopen hclose (Ne.symm hbrace.1) fun _ => rfl)

/-- Pairs of braces inside a body leave the number of open ones as it is. -/
theorem keepsOn_inside (h : Balanced cs) (parens : Int) (braces : Nat) :
    KeepsOn (inside parens braces) cs ∧ ∃ left, cs.foldl step (inside parens braces) =
      inside left braces := by
  induction h generalizing parens braces with
  | nil => exact ⟨trivial, parens, rfl⟩
  | @other c cs hopen hclose _ ih =>
    obtain ⟨next, hc⟩ : ∃ next, (inside parens braces).step c = inside next braces := by
      by_cases hleft : c = '('
      · subst hleft
        exact ⟨parens + 1, rfl⟩
      · by_cases hright : c = ')'
        · subst hright
          exact ⟨parens - 1, rfl⟩
        · exact ⟨parens, step_other hleft hright hopen fun h => absurd h hclose⟩
    obtain ⟨hkeeps, hwalk⟩ := ih next braces
    rw [List.foldl_cons, hc]
    exact ⟨⟨fun _ => ⟨rfl, rfl⟩, by rwa [hc]⟩, hwalk⟩
  | @pair inner rest _ _ ihInner ihRest =>
    obtain ⟨hinner, left, hleft⟩ := ihInner parens (braces + 1)
    obtain ⟨hrest, hwalk⟩ := ihRest left braces
    have hopen : (inside parens braces).step '\x7b' = inside parens (braces + 1) := rfl
    have hclose : (inside left (braces + 1)).step '\x7d' = inside left braces := rfl
    constructor
    · refine ⟨fun h => absurd h (by decide), ?_⟩
      rw [hopen, keepsOn_append, hleft]
      exact ⟨hinner, fun h => absurd h (by decide), by rwa [hclose]⟩
    · rwa [List.foldl_cons, hopen, List.foldl_append, hleft, List.foldl_cons, hclose]

end BraceWalk

open BraceWalk

variable {w : BraceWalk} {c : Char} {seen cs rest : List Char} {j : Nat}

/-- The end of the body as it is decided behind line `j`, when `w` has been counted up to there. -/
def endBehind? (w : BraceWalk) (line : List Char) (j : Nat) (rest : List (List Char)) :
    Option Nat :=
  if w.closed then some j
  else if w.opened || 0 < w.parens then braceEnd? w (j + 1) rest
  else if hasArrowBody line || !continuesSignature rest then some j
  else braceEnd? w (j + 1) rest

/-- The end of the body, when `w` has been counted up to here and `seen` is what line `j` has in
front. -/
def endFrom? (w : BraceWalk) (seen : List Char) (j : Nat) (cs : List Char) : Option Nat :=
  match Text.pieces cs with
  | [] => none
  | line :: rest => endBehind? (line.foldl step w) (seen ++ line) j rest

theorem braceEnd?_pieces (w : BraceWalk) (j : Nat) (cs : List Char) :
    braceEnd? w j (Text.pieces cs) = endFrom? w [] j cs := by
  obtain ⟨line, rest, hpieces⟩ := Text.exists_pieces cs
  rw [endFrom?, hpieces]
  rfl

theorem endFrom?_cons (hc : c ≠ '\n') :
    endFrom? w seen j (c :: cs) = endFrom? (w.step c) (seen ++ [c]) j cs := by
  rw [endFrom?, endFrom?, Text.pieces_cons hc]
  cases Text.pieces cs with
  | nil => rfl
  | cons line rest => exact congrArg (endBehind? _ · j rest) (List.append_assoc seen [c] line).symm

theorem endFrom?_newline :
    endFrom? w seen j ('\n' :: cs) = endBehind? w seen j (Text.pieces cs) := by
  rw [endFrom?, Text.pieces_newline]
  exact congrArg (endBehind? w · j (Text.pieces cs)) (List.append_nil seen)

theorem endFrom?_of_closed (h : w.closed = true) (seen : List Char) (j : Nat) (cs : List Char) :
    endFrom? w seen j cs = some j := by
  obtain ⟨line, rest, hpieces⟩ := Text.exists_pieces cs
  rw [endFrom?, hpieces]
  exact if_pos (by rwa [foldl_step_of_closed h])

/-- A part on which the walk keeps on is passed over. -/
theorem endFrom?_append (h : KeepsOn w cs) (hseen : '\n' ∉ seen) :
    endFrom? w seen j (cs ++ rest) =
      endFrom? (cs.foldl step w) (Text.lastLine (seen ++ cs)) (j + cs.count '\n') rest := by
  induction cs generalizing w seen j with
  | nil => rw [List.append_nil, Text.lastLine_of_not_mem hseen]; rfl
  | cons c cs ih =>
    obtain ⟨hline, hkeeps⟩ := h
    rw [List.cons_append, List.foldl_cons]
    by_cases hc : c = '\n'
    · subst hc
      obtain ⟨hclosed, hunderWay⟩ := hline rfl
      rw [step_newline] at hkeeps
      rw [endFrom?_newline, endBehind?, if_neg (by simp [hclosed]), if_pos hunderWay,
        braceEnd?_pieces, ih hkeeps (by simp), step_newline, List.nil_append, Text.lastLine_newline,
        List.count_cons_self]
      congr 1
      omega
    · rw [endFrom?_cons hc, ih hkeeps (by simp [hseen, Ne.symm hc]), List.count_cons_of_ne hc,
        List.append_assoc]
      rfl

/-- A pair of braces is the body wherever none has been opened in front of it. -/
theorem endFrom?_pair {parens : Nat} {inner : List Char} (h : Balanced inner)
    (hseen : '\n' ∉ seen) :
    endFrom? (signature parens) seen j ('\x7b' :: (inner ++ '\x7d' :: rest)) =
      some (j + inner.count '\n') := by
  obtain ⟨hkeeps, left, hwalk⟩ := keepsOn_inside h parens 0
  have hopen : (signature parens).step '\x7b' = inside parens 0 := rfl
  rw [endFrom?_cons (by decide), hopen, endFrom?_append hkeeps (by simp [hseen]), hwalk,
    endFrom?_cons (by decide)]
  exact endFrom?_of_closed rfl _ _ _

/-! ### Between the parameters and the body -/

theorem hasArrowBody_cons (h : ¬['=', '>'].isPrefixOf (c :: cs) = true) :
    hasArrowBody (c :: cs) = hasArrowBody cs := by
  rw [hasArrowBody, hasArrowBody, Text.cut?, if_neg h]
  cases Text.cut? ['=', '>'] cs <;> rfl

theorem hasArrowBody_blanks (h : ∀ c ∈ cs, Text.isBlank c = true) : hasArrowBody cs = false := by
  induction cs with
  | nil => rfl
  | cons c cs ih =>
    have hc : c ≠ '=' := Text.ne_of_class (h c (by simp)) rfl
    rw [hasArrowBody_cons (by simp [List.isPrefixOf, Ne.symm hc]),
      ih fun d hd => h d (by simp [hd])]

/-- With a parenthesis behind it every arrow has something behind it. -/
theorem hasArrowBody_paren {blanks : List Char} (h : ∀ c ∈ blanks, Text.isBlank c = true)
    (front : List Char) :
    hasArrowBody (front ++ ')' :: blanks) = Text.hasSub ['=', '>'] front := by
  induction front with
  | nil =>
    rw [List.nil_append, hasArrowBody_cons (by simp [List.isPrefixOf]), hasArrowBody_blanks h]
    rfl
  | cons c front ih =>
    have hpre : ['=', '>'].isPrefixOf (c :: (front ++ ')' :: blanks)) =
        ['=', '>'].isPrefixOf (c :: front) := by
      cases front <;> simp [List.isPrefixOf]
    rw [List.cons_append, Text.hasSub, Text.cut?]
    by_cases harrow : ['=', '>'].isPrefixOf (c :: front) = true
    · cases front with
      | nil => simp [List.isPrefixOf] at harrow
      | cons d front =>
        obtain ⟨rfl, rfl⟩ : '=' = c ∧ '>' = d := by simpa [List.isPrefixOf] using harrow
        have hpart : Text.isBlankLine (front ++ ')' :: blanks) = false := by
          rw [Text.isBlankLine, List.all_append, List.all_cons]
          exact Bool.and_false _
        rw [if_pos harrow, hasArrowBody, Text.cut?, if_pos (by rwa [hpre])]
        exact congrArg (!·) hpart
    · rw [hasArrowBody_cons (by rwa [hpre]), ih, if_neg harrow, Option.isSome_map, Text.hasSub]

/-- The signature goes on below where a brace is the next thing that is not white space. -/
theorem continuesSignature_brace {blanks : List Char} (h : ∀ c ∈ blanks, Text.isBlank c = true)
    (more : List Char) :
    continuesSignature (Text.pieces (blanks ++ '\x7b' :: more)) = true := by
  induction blanks using Text.line_induction with
  | last blanks hline =>
    obtain ⟨line, rest, hpieces⟩ := Text.exists_pieces more
    have htrim : Text.trim (blanks ++ '\x7b' :: line) = '\x7b' :: Text.trimEnd line := by
      rw [Text.trim, Text.trimStart, List.dropWhile_append_of_pos h,
        List.dropWhile_cons_of_neg (by decide), Text.trimEnd_cons rfl]
    rw [Text.pieces_append_of_not_mem hline, Text.pieces_cons (by decide), hpieces,
      List.modifyHead_cons, List.modifyHead_cons, continuesSignature, List.map_cons, htrim,
      List.find?_cons_of_pos (by rfl)]
    rfl
  | next blanks lower hline ih =>
    have htrim : Text.trim blanks = [] := by
      rw [Text.trim, Text.trimStart, List.dropWhile_eq_nil_iff.2 fun c hc => h c (by simp [hc])]
      rfl
    rw [List.append_assoc, List.cons_append, Text.pieces_line hline, continuesSignature,
      List.map_cons, htrim, List.find?_cons_of_neg (by simp)]
    exact ih fun c hc => h c (by simp [hc])

/-- White space in front of a brace is passed over, but where a line ends in it what stands on the
line can be taken for the whole function. -/
theorem endFrom?_gap {gap : List Char} (h : ∀ c ∈ gap, Text.isBlank c = true)
    (hseen : '\n' ∉ seen) :
    endFrom? (signature 0) seen j (gap ++ '\x7b' :: rest) =
      if '\n' ∈ gap ∧ hasArrowBody (seen ++ gap.takeWhile (· != '\n')) = true then some j
      else endFrom? (signature 0) (Text.lastLine (seen ++ gap)) (j + gap.count '\n')
        ('\x7b' :: rest) := by
  induction gap generalizing seen j with
  | nil => rw [if_neg (by simp), List.append_nil, Text.lastLine_of_not_mem hseen]; rfl
  | cons c gap ih =>
    have hgap : ∀ d ∈ gap, Text.isBlank d = true := fun d hd => h d (by simp [hd])
    rw [List.cons_append]
    by_cases hc : c = '\n'
    · subst hc
      have hblank : hasArrowBody (gap.takeWhile (· != '\n')) = false :=
        hasArrowBody_blanks fun d hd => hgap d ((List.takeWhile_prefix _).mem hd)
      have hnext : endFrom? (signature 0) [] (j + 1) (gap ++ '\x7b' :: rest) =
          endFrom? (signature 0) (Text.lastLine gap) (j + (gap.count '\n' + 1))
            ('\x7b' :: rest) := by
        rw [ih hgap (by simp), List.nil_append, List.nil_append, if_neg (by simp [hblank])]
        congr 1
        omega
      rw [endFrom?_newline, endBehind?, if_neg (by decide), if_neg (by decide),
        continuesSignature_brace hgap, braceEnd?_pieces, hnext, Text.lastLine_newline,
        List.count_cons_self, List.takeWhile_cons_of_neg (by decide), List.append_nil,
        Bool.not_true, Bool.or_false]
      simp
    · have hblank := h c (by simp)
      have hstep : (signature 0).step c = signature 0 :=
        step_other (Text.ne_of_class hblank rfl) (Text.ne_of_class hblank rfl)
          (Text.ne_of_class hblank rfl)
          fun _ => rfl
      rw [endFrom?_cons hc, hstep, ih hgap (by simp [hseen, Ne.symm hc]), List.count_cons_of_ne hc,
        List.takeWhile_cons_of_pos (by simpa using hc), List.append_assoc, List.append_assoc]
      simp [Ne.symm hc]

end LineSpan

/-! ### Functions with a body -/

/-- A text with a function in it: parameters in parentheses and, behind `gap`, a body in braces. -/
structure FunctionText where
  before : List Char
  params : List Char
  gap : List Char
  body : List Char
  after : List Char

namespace FunctionText

def text (f : FunctionText) : List Char :=
  f.before ++ '(' :: (f.params ++ ')' :: (f.gap ++ '\x7b' :: (f.body ++ '\x7d' :: f.after)))

/-- Where the parameters open. -/
def opening (f : FunctionText) : Nat :=
  Text.size f.before

/-- Where the parameters close. -/
def closing (f : FunctionText) : Nat :=
  Text.size (f.before ++ '(' :: f.params)

/-- Where the body closes. -/
def bodyEnd (f : FunctionText) : Nat :=
  Text.size (f.before ++ '(' :: (f.params ++ ')' :: (f.gap ++ '\x7b' :: f.body)))

def lineOf (f : FunctionText) (offset : Nat) : Nat :=
  (Text.LineIndex.ofText f.text).lineOf offset

/-- Whether there is an arrow in front of the closing parenthesis, on its line. -/
def hasArrow (f : FunctionText) : Bool :=
  Text.hasSub ['=', '>'] (Text.lastLine (f.before ++ '(' :: f.params))

/-- The parentheses match, only white space stands in front of the body, the braces among the
parameters and in the body have their partners, and none precedes the parameters on their line. -/
structure WellFormed (f : FunctionText) : Prop where
  closes : matchingParen? f.text f.opening = some f.closing
  blank : ∀ c ∈ f.gap, Text.isBlank c = true
  params : Balanced f.params
  body : Balanced f.body
  lead : ∀ c ∈ Text.lastLine f.before, c ≠ '(' ∧ c ≠ ')' ∧ c ≠ '\x7b'

/-- The offset up to which the function is taken to go. -/
inductive SpanEnds (f : FunctionText) : Nat → Prop
  /-- The first pair of braces among the parameters is taken for the body. -/
  | pair {front inner rest : List Char}
      (hparams : f.params = front ++ '\x7b' :: (inner ++ '\x7d' :: rest))
      (hfront : '\x7b' ∉ front) (hinner : Balanced inner) :
      SpanEnds f (Text.size (f.before ++ '(' :: (front ++ '\x7b' :: inner)))
  /-- The arrow is taken for the one in front of a body without braces. -/
  | arrow (hparams : '\x7b' ∉ f.params) (harrow : '\n' ∈ f.gap ∧ f.hasArrow = true) :
    SpanEnds f f.closing
  | body (hparams : '\x7b' ∉ f.params) (hnone : ¬('\n' ∈ f.gap ∧ f.hasArrow = true)) :
    SpanEnds f f.bodyEnd

/-- The walk ends on the line on which the body does. -/
def IsCovered (f : FunctionText) : Prop :=
  ('\x7b' ∉ f.params ∧ ¬('\n' ∈ f.gap ∧ f.hasArrow = true)) ∨
    ∃ front inner rest, f.params = front ++ '\x7b' :: (inner ++ '\x7d' :: rest) ∧ '\x7b' ∉ front ∧
      Balanced inner ∧
      '\n' ∉ rest ++ (f.gap ++ f.body)

open LineSpan LineSpan.BraceWalk

variable {f : FunctionText} {last : Nat}

theorem exists_spanEnds (h : f.WellFormed) : ∃ last, f.SpanEnds last := by
  by_cases hmem : '\x7b' ∈ f.params
  · obtain ⟨front, inner, rest, hparams, hfront, hinner⟩ := h.params.exists_first hmem
    exact ⟨_, .pair hparams hfront hinner⟩
  · by_cases harrow : '\n' ∈ f.gap ∧ f.hasArrow = true
    · exact ⟨_, .arrow hmem harrow⟩
    · exact ⟨_, .body hmem harrow⟩

theorem lineOf_size {front : List Char} (rest : List Char) (htext : f.text = front ++ rest) :
    f.lineOf (Text.size front) = front.count '\n' := by
  rw [lineOf, htext, Text.LineIndex.lineOf_size]

theorem lineOf_opening (f : FunctionText) : f.lineOf f.opening = f.before.count '\n' :=
  lineOf_size _ rfl

theorem lineOf_closing (f : FunctionText) :
    f.lineOf f.closing = f.before.count '\n' + f.params.count '\n' := by
  rw [closing, lineOf_size (')' :: (f.gap ++ '\x7b' :: (f.body ++ '\x7d' :: f.after)))
    (by simp [text]), List.count_append, List.count_cons_of_ne (by decide)]

theorem lineOf_bodyEnd (f : FunctionText) :
    f.lineOf f.bodyEnd =
      f.before.count '\n' + f.params.count '\n' + f.gap.count '\n' + f.body.count '\n' := by
  rw [bodyEnd, lineOf_size ('\x7d' :: f.after) (by simp [text])]
  simp [Nat.add_assoc]

theorem count_pair {front inner rest : List Char}
    (hparams : f.params = front ++ '\x7b' :: (inner ++ '\x7d' :: rest)) :
    f.params.count '\n' = front.count '\n' + inner.count '\n' + rest.count '\n' := by
  simp [hparams, Nat.add_assoc]

theorem lineOf_pair {front inner rest : List Char}
    (hparams : f.params = front ++ '\x7b' :: (inner ++ '\x7d' :: rest)) :
    f.lineOf (Text.size (f.before ++ '(' :: (front ++ '\x7b' :: inner))) =
      f.before.count '\n' + front.count '\n' + inner.count '\n' := by
  rw [lineOf_size ('\x7d' :: (rest ++ ')' :: (f.gap ++ '\x7b' :: (f.body ++ '\x7d' :: f.after))))
    (by simp [text, hparams])]
  simp [Nat.add_assoc]

theorem isCovered_iff :
    f.IsCovered ↔ ∃ last, f.SpanEnds last ∧ f.lineOf last = f.lineOf f.bodyEnd := by
  constructor
  · rintro (⟨hparams, hnone⟩ | ⟨front, inner, rest, hparams, hfront, hinner, hline⟩)
    · exact ⟨_, .body hparams hnone, rfl⟩
    · refine ⟨_, .pair hparams hfront hinner, ?_⟩
      have hcount := List.count_eq_zero.2 hline
      rw [List.count_append, List.count_append] at hcount
      rw [lineOf_pair hparams, lineOf_bodyEnd, count_pair hparams]
      omega
  · rintro ⟨last, hlast, hline⟩
    cases hlast with
    | @pair front inner rest hparams hfront hinner =>
      refine .inr ⟨front, inner, rest, hparams, hfront, hinner, List.count_eq_zero.1 ?_⟩
      rw [lineOf_pair hparams, lineOf_bodyEnd, count_pair hparams] at hline
      rw [List.count_append, List.count_append]
      omega
    | arrow hparams harrow =>
      have hgap := List.count_pos_iff.2 harrow.1
      rw [lineOf_closing, lineOf_bodyEnd] at hline
      omega
    | body hparams hnone => exact .inl ⟨hparams, hnone⟩

/-- From behind the opening parenthesis on the walk goes on with one parenthesis open. -/
theorem byBraces?_text (h : f.WellFormed) :
    byBraces? (Text.pieces f.text) (f.lineOf f.opening) =
      (endFrom? (signature 1) (Text.lastLine f.before ++ ['(']) (f.before.count '\n')
        (f.params ++ ')' :: (f.gap ++ '\x7b' :: (f.body ++ '\x7d' :: f.after)))).map
          (⟨f.lineOf f.opening, ·⟩) := by
  have hlead := Text.not_mem_lastLine f.before
  have hstart : BraceWalk.start = signature 0 := rfl
  have hopen : (signature 0).step '(' = signature 1 := rfl
  have hend := braceEnd?_pieces .start (f.before.count '\n')
    (Text.lastLine f.before ++
      '(' :: (f.params ++ ')' :: (f.gap ++ '\x7b' :: (f.body ++ '\x7d' :: f.after))))
  rw [hstart, endFrom?_append (keepsOn_of_not_mem hlead) (by simp), foldl_step_signature h.lead,
    List.nil_append, Text.lastLine_of_not_mem hlead, List.count_eq_zero.2 hlead, Nat.add_zero,
    endFrom?_cons (by decide), hopen] at hend
  rw [lineOf_opening, ← hend, byBraces?, text, Text.drop_pieces_append, hstart]
  split
  · rename_i hpieces
    exact absurd hpieces (List.splitOn_ne_nil '\n' _)
  · rfl

/-- Parameters without braces are passed over, up to the parenthesis that closes them. -/
theorem endFrom?_params (h : f.WellFormed) (hparams : '\x7b' ∉ f.params) (rest : List Char) :
    endFrom? (signature 1) (Text.lastLine f.before ++ ['(']) (f.before.count '\n')
      (f.params ++ ')' :: rest) =
      endFrom? (signature 0) (Text.lastLine (f.before ++ '(' :: f.params) ++ [')'])
        (f.before.count '\n' + f.params.count '\n') rest := by
  have hcloses := closes_of_matchingParen? h.closes
  rw [← List.append_nil f.params] at hcloses
  obtain ⟨left, hpos, hleft, hkeeps, hwalk⟩ := keepsOn_signature hcloses Nat.one_pos hparams
  obtain rfl : left = 1 := Nat.le_antisymm hleft hpos
  have hclose : (signature 1).step ')' = signature 0 := rfl
  rw [endFrom?_append hkeeps (by simp [Text.not_mem_lastLine]), hwalk, endFrom?_cons (by decide),
    hclose, List.append_assoc, Text.lastLine_lastLine_append]
  rfl

theorem endFrom?_text (h : f.WellFormed) (hparams : '\x7b' ∉ f.params) :
    endFrom? (signature 1) (Text.lastLine f.before ++ ['(']) (f.before.count '\n')
        (f.params ++ ')' :: (f.gap ++ '\x7b' :: (f.body ++ '\x7d' :: f.after))) =
      if '\n' ∈ f.gap ∧ f.hasArrow = true then some (f.before.count '\n' + f.params.count '\n')
      else some (f.before.count '\n' + f.params.count '\n' + f.gap.count '\n' +
        f.body.count '\n') := by
  have harrow : hasArrowBody (Text.lastLine (f.before ++ '(' :: f.params) ++ [')'] ++
    f.gap.takeWhile (· != '\n')) =
      f.hasArrow := by
    rw [List.append_assoc]
    exact hasArrowBody_paren (fun c hc => h.blank c ((List.takeWhile_prefix _).mem hc)) _
  rw [endFrom?_params h hparams, endFrom?_gap h.blank (by simp [Text.not_mem_lastLine]), harrow,
    endFrom?_pair h.body (Text.not_mem_lastLine _)]

theorem byBraces?_of_spanEnds (h : f.WellFormed) (hlast : f.SpanEnds last) :
    byBraces? (Text.pieces f.text) (f.lineOf f.opening) =
      some ⟨f.lineOf f.opening, f.lineOf last⟩ := by
  rw [byBraces?_text h]
  cases hlast with
  | @pair front inner rest hparams hfront hinner =>
    have hcloses := closes_of_matchingParen? h.closes
    rw [hparams] at hcloses
    obtain ⟨left, -, -, hkeeps, hwalk⟩ := keepsOn_signature hcloses Nat.one_pos hfront
    rw [lineOf_pair hparams, hparams, List.append_assoc, List.cons_append, List.append_assoc,
      endFrom?_append hkeeps (by simp [Text.not_mem_lastLine]), hwalk, List.cons_append,
      endFrom?_pair hinner (Text.not_mem_lastLine _)]
    rfl
  | arrow hparams harrow => rw [endFrom?_text h hparams, if_pos harrow, lineOf_closing]; rfl
  | body hparams hnone => rw [endFrom?_text h hparams, if_neg hnone, lineOf_bodyEnd]; rfl

/-- A function with a body goes up to the offset that `SpanEnds` names, and so to the end of its
body just if it is covered. -/
theorem byBraces?_function (f : FunctionText) (h : f.WellFormed) :
    (∃ last, f.SpanEnds last) ∧
    (∀ last, f.SpanEnds last →
      byBraces? (Text.pieces f.text) (f.lineOf f.opening) =
        some ⟨f.lineOf f.opening, f.lineOf last⟩) ∧
    (byBraces? (Text.pieces f.text) (f.lineOf f.opening) =
      some ⟨f.lineOf f.opening, f.lineOf f.bodyEnd⟩ ↔
      f.IsCovered) := by
  refine ⟨exists_spanEnds h, fun last => byBraces?_of_spanEnds h, ?_⟩
  rw [isCovered_iff]
  constructor
  · intro hspan
    obtain ⟨last, hlast⟩ := exists_spanEnds h
    rw [byBraces?_of_spanEnds h hlast, Option.some_inj, LineSpan.mk.injEq] at hspan
    exact ⟨last, hlast, hspan.2⟩
  · rintro ⟨last, hlast, hline⟩
    rw [byBraces?_of_spanEnds h hlast, hline]

/-- A function whose first parameter is taken apart in braces, with a body that ends two lines
below. -/
def destructuring : FunctionText :=
  ⟨"function f".toList, '\x7b' :: (" a ".toList ++ '\x7d' :: ", b".toList), [' '],
    "\n  g();\n".toList, []⟩

theorem balanced_parameter : Balanced " a ".toList :=
  .of_not_mem (by decide +kernel) (by decide +kernel)

theorem wellFormed_destructuring : destructuring.WellFormed where
  closes := by decide +kernel
  blank := List.all_eq_true.1 (by decide +kernel)
  params := .pair balanced_parameter (.of_not_mem (by decide +kernel) (by decide +kernel))
  body := .of_not_mem (by decide +kernel) (by decide +kernel)
  lead := by
    have hall : (Text.lastLine destructuring.before).all
        (fun c => c != '(' && (c != ')' && c != '\x7b')) = true := by
      decide +kernel
    simpa using hall

/-- The span ends with the braces of the parameter, not with those of the body. -/
theorem byBraces?_destructuring :
    destructuring.WellFormed ∧ destructuring.lineOf destructuring.bodyEnd = 2 ∧
      ¬destructuring.IsCovered ∧
      byBraces? (Text.pieces destructuring.text) (destructuring.lineOf destructuring.opening) =
        some ⟨0, 0⟩ := by
  obtain ⟨-, hspan, hcovered⟩ := byBraces?_function destructuring wellFormed_destructuring
  have hpair : destructuring.SpanEnds (Text.size
      (destructuring.before ++ '(' :: ([] ++ '\x7b' :: " a ".toList))) :=
    .pair rfl (by simp) balanced_parameter
  have hfirst := hspan _ hpair
  have hopening : destructuring.lineOf destructuring.opening = 0 := by decide +kernel
  have hbodyEnd : destructuring.lineOf destructuring.bodyEnd = 2 := by decide +kernel
  have hlast : destructuring.lineOf (Text.size
      (destructuring.before ++ '(' :: ([] ++ '\x7b' :: " a ".toList))) = 0 := by
    decide +kernel
  rw [hopening, hlast] at hfirst
  rw [hopening, hbodyEnd, hfirst] at hcovered
  exact ⟨wellFormed_destructuring, hbodyEnd,
    fun h => absurd (hcovered.2 h) (by decide), by rw [hopening, hfirst]⟩

end FunctionText

end CodeSurvey
