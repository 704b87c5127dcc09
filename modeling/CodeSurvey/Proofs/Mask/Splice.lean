import CodeSurvey.Proofs.Mask.Idempotent
import CodeSurvey.Proofs.Text.Cut
import CodeSurvey.Proofs.Text.Word
import Mathlib.Data.List.Infix

/-!
# Masking around a place

The walk over a text looks a few characters ahead. So what is shown in front of a place hardly
depends on what follows there: a brace in code may go to a line of its own, and the body of a
literal may be exchanged, and all else is shown as before.
-/
namespace CodeSurvey

namespace Mask

/-- The mode after a text that `rest` follows. -/
def modeAfter (lexis : Lexis) : Mode → List Char → List Char → Mode
  | mode, [], _ => mode
  | mode, c :: cs, rest => modeAfter lexis (step lexis mode c (cs ++ rest)).2 cs rest

/-- What is shown of a text that `rest` follows. -/
def maskBefore (lexis : Lexis) : Mode → List Char → List Char → List Char
  | _, [], _ => []
  | mode, c :: cs, rest =>
    (if (step lexis mode c (cs ++ rest)).1 = .code then [c] else blankOut c) ++
      maskBefore lexis (step lexis mode c (cs ++ rest)).2 cs rest

variable {lexis : Lexis} {mode : Mode}

theorem maskFrom_append (lexis : Lexis) (mode : Mode) (cs rest : List Char) :
    maskFrom lexis mode (cs ++ rest) =
      maskBefore lexis mode cs rest ++ maskFrom lexis (modeAfter lexis mode cs rest) rest := by
  induction cs generalizing mode with
  | nil => rfl
  | cons c cs ih =>
    rw [List.cons_append, maskFrom_cons, ih, maskBefore, modeAfter, List.append_assoc]

theorem blanked_maskBefore (lexis : Lexis) (mode : Mode) (cs rest : List Char) :
    Blanked cs (maskBefore lexis mode cs rest) := by
  induction cs generalizing mode with
  | nil => exact .nil
  | cons c cs ih =>
    rw [maskBefore]
    split
    · exact .keep c (ih _)
    · exact (ih _).blankOut c

theorem Blanked.count_newline {text shown : List Char} (h : Blanked text shown) :
    shown.count '\n' = text.count '\n' := by
  induction h with
  | nil => rfl
  | keep c _ ih => rw [List.count_cons, List.count_cons, ih]
  | @blank c hc _ _ _ ih =>
    rw [List.count_append, List.count_eq_zero.2 (by simp), List.count_cons_of_ne hc, ih,
      Nat.zero_add]

/-! ### Looking ahead -/

/-- The tokens that are looked for in code and in comments. -/
def tokens (lexis : Lexis) : List (List Char) :=
  [lexis.lineComment, ['"', '"', '"'], ['\'', '\'', '\'']] ++
  lexis.blockComment.toList.flatMap fun b => [b.1, b.2]

/-- The token that ends a literal between three quotes. -/
def Mode.closers : Mode → List (List Char)
  | .tripled q => [[q, q, q]]
  | _ => []

theorem afterBackslash_congr {xs ys : List Char} (h : xs.head? = ys.head?) (mode : Mode) :
    afterBackslash xs mode = afterBackslash ys mode := by
  cases xs with
  | nil =>
    cases ys with
    | nil => rfl
    | cons y ys => cases h
  | cons x xs =>
    cases ys with
    | nil => cases h
    | cons y ys =>
      obtain rfl := Option.some.inj h
      rfl

/-- A step depends on the tokens at its place, and in a literal on what a backslash hides. -/
theorem step_congr {c : Char} {xs ys : List Char}
    (htokens : ∀ token ∈ tokens lexis ++ mode.closers, token.isPrefixOf (c :: xs) =
      token.isPrefixOf (c :: ys))
    (hhidden : ∀ q, c = '\\' → mode = .quoted q ∨ mode = .tripled q → xs.head? = ys.head?) :
    step lexis mode c xs = step lexis mode c ys := by
  have hline := htokens lexis.lineComment (by simp [tokens])
  have hdouble := htokens ['"', '"', '"'] (by simp [tokens])
  have hsingle := htokens ['\'', '\'', '\''] (by simp [tokens])
  have hblock : ∀ b, lexis.blockComment = some b →
      b.1.isPrefixOf (c :: xs) = b.1.isPrefixOf (c :: ys) ∧
      b.2.isPrefixOf (c :: xs) = b.2.isPrefixOf (c :: ys) := by
    intro b hb
    exact ⟨htokens b.1 (by simp [tokens, hb]), htokens b.2 (by simp [tokens, hb])⟩
  have hopeners : (lexis.blockComment.filter fun b => b.1.isPrefixOf (c :: xs)) =
      lexis.blockComment.filter fun b => b.1.isPrefixOf (c :: ys) := by
    cases hb : lexis.blockComment with
    | none => rfl
    | some b => simp only [Option.filter, (hblock b hb).1]
  have hclosers : (lexis.blockComment.filter fun b => b.2.isPrefixOf (c :: xs)) =
      lexis.blockComment.filter fun b => b.2.isPrefixOf (c :: ys) := by
    cases hb : lexis.blockComment with
    | none => rfl
    | some b => simp only [Option.filter, (hblock b hb).2]
  cases mode with
  | code =>
    rw [step, step, stepCode, stepCode, opensTriple, opensTriple, hline, hopeners, hdouble, hsingle]
  | lineComment => rfl
  | blockComment => simp only [step, hclosers]
  | quoted q =>
    rw [step, step]
    by_cases hc : c = '\\'
    · rw [afterBackslash_congr (hhidden q hc (.inl rfl))]
    · have hplain : (c == '\\') = false := by simpa using hc
      simp only [hplain, Bool.false_eq_true, if_false]
  | tripled q =>
    have htriple := htokens [q, q, q] (by simp [Mode.closers])
    rw [step, step]
    by_cases hc : c = '\\'
    · rw [afterBackslash_congr (hhidden q hc (.inr rfl)), htriple]
    · have hplain : (c == '\\') = false := by simpa using hc
      rw [htriple]
      simp only [hplain, Bool.false_eq_true, if_false]
  | inside n region after => cases n <;> rfl

/-- A token is not found across a character that it does not have. -/
theorem isPrefixOf_append_cons {token : List Char} {c : Char} (h : c ∉ token)
    (cs rest : List Char) :
    token.isPrefixOf (cs ++ c :: rest) = token.isPrefixOf cs := by
  induction token generalizing cs with
  | nil => simp
  | cons t token ih =>
    rw [List.mem_cons, not_or] at h
    cases cs with
    | nil => simp [List.isPrefixOf, Ne.symm h.1]
    | cons d cs =>
      rw [List.cons_append, List.isPrefixOf_cons_cons, List.isPrefixOf_cons_cons, ih h.2]

theorem isPrefixOf_append_of_length {token cs : List Char} (h : token.length ≤ cs.length)
    (rest : List Char) :
    token.isPrefixOf (cs ++ rest) = token.isPrefixOf cs := by
  rw [Bool.eq_iff_iff, List.isPrefixOf_iff_prefix, List.isPrefixOf_iff_prefix,
    List.isPrefix_append_of_length h]

/-- What stands in front of a place is passed alike before two texts, if every step is along which
`P` holds. -/
theorem before_congr {rest more : List Char} (P : Mode → List Char → Prop)
    (hstep : ∀ mode c cs, P mode (c :: cs) →
      step lexis mode c (cs ++ rest) = step lexis mode c (cs ++ more) ∧
      P (step lexis mode c (cs ++ more)).2 cs)
    {cs : List Char} (h : P mode cs) :
    modeAfter lexis mode cs rest = modeAfter lexis mode cs more ∧
      maskBefore lexis mode cs rest = maskBefore lexis mode cs more := by
  induction cs generalizing mode with
  | nil => exact ⟨rfl, rfl⟩
  | cons c cs ih =>
    obtain ⟨hsame, hnext⟩ := hstep mode c cs h
    obtain ⟨hmode, hmask⟩ := ih hnext
    rw [modeAfter, modeAfter, maskBefore, maskBefore, hsame]
    exact ⟨hmode, congrArg _ hmask⟩

/-- A character that is in no token of code and is no quote is in none that the walk looks for. -/
theorem Reached.not_mem_tokens {c : Char} {cs : List Char} (h : Reached mode cs)
    (htokens : ∀ token ∈ tokens lexis, c ∉ token) (hquote : c ∉ quotes) :
    ∀ token ∈ tokens lexis ++ mode.closers, c ∉ token := by
  intro token htoken
  rcases List.mem_append.1 htoken with htoken | htoken
  · exact htokens token htoken
  · cases h with
    | @tripled q hq =>
      rw [List.mem_singleton.1 htoken]
      have hne : c ≠ q := fun heq => hquote (heq ▸ hq)
      simp [hne]
    | _ => cases htoken

/-! ### A brace in code -/

section Brace

variable {after indentation : List Char}

/-- If a brace stands in code, then a line may end there instead. -/
theorem before_brace {cs : List Char} (rest : List Char)
    (hreached : Reached mode (cs ++ '\x7b' :: after))
    (hcode : modeAfter Swift.lexis mode cs ('\x7b' :: after) = .code) :
    modeAfter Swift.lexis mode cs ('\n' :: rest) = .code ∧
      maskBefore Swift.lexis mode cs ('\n' :: rest) =
        maskBefore Swift.lexis mode cs ('\x7b' :: after) := by
  have hbrace : ∀ token ∈ tokens Swift.lexis, '\x7b' ∉ token := by simp [tokens, Swift.lexis]
  have hnewline : ∀ token ∈ tokens Swift.lexis, '\n' ∉ token := by simp [tokens, Swift.lexis]
  rw [← hcode]
  refine before_congr (fun mode cs => Reached mode (cs ++ '\x7b' :: after) ∧
    modeAfter Swift.lexis mode cs ('\x7b' :: after) = .code) ?_ ⟨hreached, hcode⟩
  rintro mode c cs ⟨hreached, hcode⟩
  refine ⟨step_congr ?_ ?_, (hreached.followed (Language.visible_lexis .swift)).reached, hcode⟩
  · intro token htoken
    rw [← List.cons_append, ← List.cons_append,
      isPrefixOf_append_cons (hreached.not_mem_tokens hnewline (by decide) token htoken),
      isPrefixOf_append_cons (hreached.not_mem_tokens hbrace (by decide) token htoken)]
  · rintro q rfl hmode
    cases cs with
    | cons d cs => rfl
    | nil =>
      -- a backslash would hide the brace
      rcases hmode with rfl | rfl <;> cases hcode

theorem maskFrom_code_plain {c : Char} (hcomment : NoComment lexis (c :: after))
    (hquote : opensQuote lexis c = false) (htriple : opensTriple (c :: after) = false) :
    maskFrom lexis .code (c :: after) = c :: maskFrom lexis .code after := by
  have hstep : step lexis .code c after = (.code, .code) := by
    rw [step, stepCode_of_noComment hcomment, codeMode, htriple, hquote, Bool.and_false]
    rfl
  rw [maskFrom_cons, hstep]
  rfl

theorem maskFrom_code_brace (after : List Char) :
    maskFrom Swift.lexis .code ('\x7b' :: after) = '\x7b' :: maskFrom Swift.lexis .code after := by
  refine maskFrom_code_plain ?_ rfl rfl
  simp [NoComment, Lexis.commentOpeners, Swift.lexis]

theorem maskFrom_code_blanks (h : ∀ c ∈ indentation, Text.isBlank c = true) (rest : List Char) :
    maskFrom Swift.lexis .code (indentation ++ rest) =
      indentation ++ maskFrom Swift.lexis .code rest := by
  induction indentation with
  | nil => rfl
  | cons c indentation ih =>
    obtain ⟨hc, hmore⟩ := List.forall_mem_cons.1 h
    have hdouble : c ≠ '"' := Text.ne_of_class hc rfl
    have hsingle : c ≠ '\'' := Text.ne_of_class hc rfl
    have htriple : opensTriple (c :: (indentation ++ rest)) = false := by
      rw [Bool.eq_false_iff, ne_eq, opensTriple_iff]
      exact fun hopens => hopens.1.elim hdouble hsingle
    have hquote : opensQuote Swift.lexis c = false := by simp [opensQuote, hdouble, Swift.lexis]
    have hcomment : NoComment Swift.lexis (c :: (indentation ++ rest)) :=
      noComment_blank (Language.visible_lexis .swift) hc _
    rw [List.cons_append, maskFrom_code_plain hcomment hquote htriple, ih hmore, List.cons_append]

theorem mask_brace {front : List Char}
    (hcode : modeAfter Swift.lexis .code front ('\x7b' :: after) = .code) :
    mask Swift.lexis (front ++ '\x7b' :: after) =
      maskBefore Swift.lexis .code front ('\x7b' :: after) ++
      '\x7b' :: maskFrom Swift.lexis .code after := by
  refine (maskFrom_append Swift.lexis .code front _).trans ?_
  rw [hcode, maskFrom_code_brace]

/-- The brace on a line of its own. -/
theorem mask_brace_moved {front : List Char}
    (hcode : modeAfter Swift.lexis .code front ('\x7b' :: after) = .code)
    (hblank : ∀ c ∈ indentation, Text.isBlank c = true) :
    mask Swift.lexis (front ++ '\n' :: (indentation ++ '\x7b' :: after)) =
      maskBefore Swift.lexis .code front ('\x7b' :: after) ++
        '\n' :: (indentation ++ '\x7b' :: maskFrom Swift.lexis .code after) := by
  obtain ⟨hmode, hshown⟩ := before_brace (indentation ++ '\x7b' :: after) (.code _) hcode
  have hline : maskFrom Swift.lexis .code ('\n' :: (indentation ++ '\x7b' :: after)) =
      '\n' :: maskFrom Swift.lexis .code (indentation ++ '\x7b' :: after) := by
    have hvisible : Swift.lexis.Visible := Language.visible_lexis .swift
    rw [maskFrom_cons, step_code_newline hvisible]
    rfl
  refine (maskFrom_append Swift.lexis .code front _).trans ?_
  rw [hmode, hshown, hline, maskFrom_code_blanks hblank, maskFrom_code_brace]

end Brace

/-! ### The body of a literal -/

section Literal

variable {q : Char} {before body other after : List Char}

/-- A literal between three quotes on either side: the first ones stand in code, and all between
them and the last ones is hidden. -/
structure Literal (before : List Char) (q : Char) (body after : List Char) : Prop where
  quote : q = '"' ∨ q = '\''
  opens : modeAfter Python.lexis .code before (q :: q :: q :: (body ++ q :: q :: q :: after)) =
    .code
  hides : ∀ p ∈ (regions Python.lexis (.tripled q) (body ++ q :: q :: q :: after)).take body.length,
    p.2 = .literal
  closes : modeAfter Python.lexis (.tripled q) body (q :: q :: q :: after) = .tripled q

theorem maskBefore_of_hidden {cs rest : List Char}
    (h : ∀ p ∈ (regions lexis mode (cs ++ rest)).take cs.length, p.2 = .literal) :
    maskBefore lexis mode cs rest = cs.flatMap blankOut := by
  induction cs generalizing mode with
  | nil => rfl
  | cons c cs ih =>
    rw [List.cons_append, regions, List.length_cons, List.take_succ_cons, List.forall_mem_cons] at h
    obtain ⟨hc, hmore⟩ := h
    have hregion : (step lexis mode c (cs ++ rest)).1 = .literal := hc
    rw [maskBefore, hregion, if_neg (by decide), ih hmore, List.flatMap_cons]

/-- Three quotes hide what follows them from what stands in front. -/
theorem before_quotes (lexis : Lexis) (hshort : ∀ token ∈ tokens lexis, token.length ≤ 3)
    (mode : Mode) (a b c : Char) (cs rest more : List Char) :
    modeAfter lexis mode cs (a :: b :: c :: rest) = modeAfter lexis mode cs (a :: b :: c :: more) ∧
      maskBefore lexis mode cs (a :: b :: c :: rest) =
        maskBefore lexis mode cs (a :: b :: c :: more) := by
  refine before_congr (fun _ _ => True) ?_ trivial
  intro mode d cs _
  refine ⟨step_congr ?_ ?_, trivial⟩
  · intro token htoken
    have hlength : token.length ≤ (d :: (cs ++ [a, b, c])).length := by
      have hthree : token.length ≤ 3 := by
        rcases List.mem_append.1 htoken with htoken | htoken
        · exact hshort token htoken
        · cases mode with
          | tripled q =>
            rw [List.mem_singleton.1 htoken]
            rfl
          | _ => cases htoken
      simp only [List.length_cons, List.length_append]
      omega
    have hcut : ∀ rest, d :: (cs ++ a :: b :: c :: rest) =
        (d :: (cs ++ [a, b, c])) ++ rest := by simp
    rw [hcut rest, hcut more, isPrefixOf_append_of_length hlength,
      isPrefixOf_append_of_length hlength]
  · intro _ _ _
    cases cs <;> rfl

theorem plain_body (hplain : ∀ c ∈ body, c ≠ q ∧ c ≠ '\\') (lexis : Lexis) (rest : List Char) :
    (∀ p ∈ (regions lexis (.tripled q) (body ++ rest)).take body.length, p.2 = .literal) ∧
      modeAfter lexis (.tripled q) body rest = .tripled q := by
  induction body with
  | nil => exact ⟨nofun, rfl⟩
  | cons c body ih =>
    obtain ⟨⟨hq, hbackslash⟩, hmore⟩ := List.forall_mem_cons.1 hplain
    have hstep : step lexis (.tripled q) c (body ++ rest) = (.literal, .tripled q) := by
      rw [step, if_neg (by simpa using hbackslash), if_neg]
      rw [List.isPrefixOf_iff_prefix, List.cons_prefix_cons]
      exact fun h => hq h.1.symm
    obtain ⟨hhides, hcloses⟩ := ih hmore
    rw [List.cons_append, regions, List.length_cons, List.take_succ_cons, List.forall_mem_cons,
      modeAfter, hstep]
    exact ⟨⟨rfl, hhides⟩, hcloses⟩

theorem length_tokens_python : ∀ token ∈ tokens Python.lexis, token.length ≤ 3 := by
  simp [tokens, Python.lexis]

/-- Between the same quotes another body, without quotes and backslashes, is a literal too. -/
theorem Literal.replace (h : Literal before q body after)
    (hplain : ∀ c ∈ other, c ≠ '"' ∧ c ≠ '\'' ∧ c ≠ '\\') : Literal before q other after := by
  have hother : ∀ c ∈ other, c ≠ q ∧ c ≠ '\\' := by
    intro c hc
    obtain ⟨hdouble, hsingle, hbackslash⟩ := hplain c hc
    rcases h.quote with rfl | rfl
    · exact ⟨hdouble, hbackslash⟩
    · exact ⟨hsingle, hbackslash⟩
  obtain ⟨hhides, hcloses⟩ := plain_body hother Python.lexis (q :: q :: q :: after)
  refine ⟨h.quote, ?_, hhides, hcloses⟩
  rw [(before_quotes Python.lexis length_tokens_python .code q q q before _ _).1]
  exact h.opens

theorem Literal.mask_eq (h : Literal before q body after) :
    mask Python.lexis (before ++ q :: q :: q :: (body ++ q :: q :: q :: after)) =
      maskBefore Python.lexis .code before [q, q, q] ++
        q :: q :: q :: (body.flatMap blankOut ++
          q :: q :: q :: maskFrom Python.lexis .code after) := by
  have hopen : ∀ rest, maskFrom Python.lexis .code (q :: q :: q :: rest) =
      q :: q :: q :: maskFrom Python.lexis (.tripled q) rest := by
    rcases h.quote with rfl | rfl <;> exact fun rest => rfl
  have hclose : maskFrom Python.lexis (.tripled q) (q :: q :: q :: after) =
      q :: q :: q :: maskFrom Python.lexis .code after := by
    rcases h.quote with rfl | rfl <;> rfl
  refine (maskFrom_append Python.lexis .code before _).trans ?_
  rw [h.opens, (before_quotes Python.lexis length_tokens_python .code q q q before _ []).2, hopen,
    maskFrom_append Python.lexis (.tripled q) body, h.closes, hclose, maskBefore_of_hidden h.hides]

theorem blanked_flatMap (cs : List Char) : Blanked cs (cs.flatMap blankOut) := by
  induction cs with
  | nil => exact .nil
  | cons c cs ih => exact ih.blankOut c

theorem eq_of_mem_blankOut {c d : Char} (h : d ∈ blankOut c) : d = ' ' ∨ d = '\n' := by
  rw [blankOut] at h
  split at h
  · rename_i hc
    exact .inr ((List.mem_singleton.1 h).trans (by simpa using hc))
  · exact .inl (List.eq_of_mem_replicate h)

/-- The last line of a hidden body is as wide as it has bytes. -/
theorem length_lastLine_flatMap (cs : List Char) :
    (Text.lastLine (cs.flatMap blankOut)).length = Text.size (Text.lastLine cs) := by
  have hspaces : ∀ line : List Char, '\n' ∉ line →
      '\n' ∉ line.flatMap blankOut ∧ (line.flatMap blankOut).length = Text.size line := by
    intro line hline
    induction line with
    | nil => exact ⟨List.not_mem_nil, rfl⟩
    | cons c line ih =>
      rw [List.mem_cons, not_or] at hline
      obtain ⟨hmem, hlength⟩ := ih hline.2
      have hc : blankOut c = List.replicate c.utf8Size ' ' := by
        rw [blankOut, if_neg (by simpa using Ne.symm hline.1)]
      rw [List.flatMap_cons, hc, List.length_append, List.length_replicate, hlength, Text.size_cons]
      exact ⟨by simp [hmem], rfl⟩
  induction cs using Text.line_induction with
  | last line hline =>
    rw [Text.lastLine_of_not_mem (hspaces line hline).1, (hspaces line hline).2,
      Text.lastLine_of_not_mem hline]
  | next line rest hline ih =>
    have hnewline : blankOut '\n' = ['\n'] := rfl
    rw [List.flatMap_append, List.flatMap_cons, hnewline, List.singleton_append,
      Text.lastLine_newline, ih, Text.lastLine_newline]

end Literal

end Mask

end CodeSurvey
