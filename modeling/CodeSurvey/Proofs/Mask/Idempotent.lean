import CodeSurvey.Proofs.Mask.Layout

/-!
# Masking twice

Masking a masked text changes nothing. The walk over the masked text goes along with the walk over
the text: it stays in code while that one is in a comment, and in the same literal while that one is
in a literal, where it meets spaces only.
-/
namespace CodeSurvey

/-- The tokens that open a comment. -/
def Lexis.commentOpeners (lexis : Lexis) : List (List Char) :=
  lexis.lineComment :: (lexis.blockComment.map Prod.fst).toList

/-- No white space is part of a token that opens a comment. -/
def Lexis.Visible (lexis : Lexis) : Prop :=
  ∀ token ∈ lexis.commentOpeners, token ≠ [] ∧ ∀ c ∈ token, Text.isBlank c = false

theorem Language.visible_lexis (language : Language) : language.lexis.Visible := by
  have hall : (language.lexis.commentOpeners.all fun token =>
      !token.isEmpty && token.all fun c => !Text.isBlank c) = true := by
    cases language <;> rfl
  intro token htoken
  simpa using List.all_eq_true.1 hall token htoken

namespace Mask

variable {lexis : Lexis}

theorem maskFrom_cons (lexis : Lexis) (mode : Mode) (c : Char) (cs : List Char) :
    maskFrom lexis mode (c :: cs) =
      (if (step lexis mode c cs).1 = .code then [c] else blankOut c) ++
        maskFrom lexis (step lexis mode c cs).2 cs :=
  rfl

/-- A token without spaces that is shown stands in the text. -/
theorem Blanked.token_stands {cs shown token : List Char} (h : Blanked cs shown)
    (htoken : ' ' ∉ token) (hshown : token <+: shown) : token <+: cs := by
  induction h generalizing token with
  | nil => exact hshown
  | keep c _ ih =>
    cases token with
    | nil => exact List.nil_prefix
    | cons t token =>
      rw [List.cons_prefix_cons] at hshown ⊢
      exact ⟨hshown.1, ih (fun hmem => htoken (List.mem_cons_of_mem t hmem)) hshown.2⟩
  | @blank c _ _ _ _ _ =>
    cases token with
    | nil => exact List.nil_prefix
    | cons t token =>
      obtain ⟨n, hn⟩ : ∃ n, c.utf8Size = n + 1 := Nat.exists_eq_add_one.2 c.utf8Size_pos
      rw [hn, List.replicate_succ, List.cons_append, List.cons_prefix_cons] at hshown
      exact absurd (hshown.1 ▸ List.mem_cons_self) htoken

/-! ### Steps in code -/

/-- No comment opens at the start of the text. -/
def NoComment (lexis : Lexis) (text : List Char) : Prop :=
  ∀ token ∈ lexis.commentOpeners, ¬token <+: text

theorem noComment_iff {text : List Char} :
    NoComment lexis text ↔ ¬lexis.lineComment.isPrefixOf text = true ∧
      (lexis.blockComment.filter fun b => b.1.isPrefixOf text) = none := by
  simp only [NoComment, Lexis.commentOpeners, List.forall_mem_cons, List.isPrefixOf_iff_prefix,
    Option.filter_eq_none_iff, Option.mem_toList, Option.map_eq_some_iff]
  refine and_congr_right fun _ => ⟨?_, ?_⟩
  · intro h b hb
    exact h b.1 ⟨b, hb, rfl⟩
  · rintro h _ ⟨b, hb, rfl⟩
    exact h b hb

theorem noComment_blank (h : lexis.Visible) {c : Char} (hc : Text.isBlank c = true)
    (cs : List Char) :
    NoComment lexis (c :: cs) := by
  intro token hmem hprefix
  obtain ⟨hne, hvisible⟩ := h token hmem
  cases token with
  | nil => exact hne rfl
  | cons t token =>
    obtain ⟨rfl, -⟩ := List.cons_prefix_cons.1 hprefix
    rw [hvisible t List.mem_cons_self] at hc
    exact Bool.noConfusion hc

theorem NoComment.masked (h : lexis.Visible) {c : Char} {cs shown : List Char}
    (hshown : Blanked cs shown) (hcode : NoComment lexis (c :: cs)) :
      NoComment lexis (c :: shown) := by
  intro token hmem hprefix
  have hspace : ' ' ∉ token := by
    intro hspace
    have := (h token hmem).2 ' ' hspace
    exact absurd this (by decide)
  exact hcode token hmem ((Blanked.keep c hshown).token_stands hspace hprefix)

/-- The mode after a character of code that opens no comment. -/
def codeMode (lexis : Lexis) (c : Char) (cs : List Char) : Mode :=
  if lexis.tripleQuotes && opensTriple (c :: cs) then .inside 1 .code (.tripled c)
  else if opensQuote lexis c then .quoted c
  else .code

theorem stepCode_of_noComment {c : Char} {cs : List Char} (h : NoComment lexis (c :: cs)) :
    stepCode lexis c cs = (.code, codeMode lexis c cs) := by
  obtain ⟨hline, hblock⟩ := noComment_iff.1 h
  simp only [stepCode, if_neg hline, hblock, codeMode]
  split
  · rfl
  · split <;> rfl

theorem stepCode_of_comment {c : Char} {cs : List Char} (h : ¬NoComment lexis (c :: cs)) :
    ∃ next, stepCode lexis c cs = (.comment, next) ∧
      (next = .lineComment ∨ next = .blockComment ∨
        ∃ n, next = .inside n .comment .blockComment) := by
  by_cases hline : lexis.lineComment.isPrefixOf (c :: cs) = true
  · exact ⟨.lineComment, by rw [stepCode, if_pos hline], .inl rfl⟩
  · cases hblock : lexis.blockComment.filter fun b => b.1.isPrefixOf (c :: cs) with
    | none => exact absurd (noComment_iff.2 ⟨hline, hblock⟩) h
    | some b =>
      refine ⟨Mode.skip b.1 .comment .blockComment, by simp only [stepCode, if_neg hline, hblock],
        .inr ?_⟩
      rw [Mode.skip]
      split
      · exact .inr ⟨_, rfl⟩
      · exact .inl rfl

theorem opensTriple_iff {c : Char} {cs : List Char} :
    opensTriple (c :: cs) = true ↔ (c = '"' ∨ c = '\'') ∧ [c, c] <+: cs := by
  rw [opensTriple, Bool.or_eq_true, List.isPrefixOf_iff_prefix, List.isPrefixOf_iff_prefix,
    List.cons_prefix_cons, List.cons_prefix_cons]
  constructor
  · rintro (⟨rfl, h⟩ | ⟨rfl, h⟩)
    · exact ⟨.inl rfl, h⟩
    · exact ⟨.inr rfl, h⟩
  · rintro ⟨rfl | rfl, h⟩
    · exact .inl ⟨rfl, h⟩
    · exact .inr ⟨rfl, h⟩

/-- The two quotes after the first one of three stay. -/
theorem maskFrom_inside_code (lexis : Lexis) (after : Mode) (a b : Char) (cs : List Char) :
    maskFrom lexis (.inside 1 .code after) (a :: b :: cs) = a :: b :: maskFrom lexis after cs :=
  rfl

/-- What is blanked does not change how code goes on, as long as quotes that open a literal stay. -/
theorem codeMode_blanked {c : Char} {cs shown : List Char} (h : Blanked cs shown)
    (hkeep : ∀ rest, codeMode lexis c cs = .inside 1 .code (.tripled c) → cs = c :: c :: rest →
      [c, c] <+: shown) :
    codeMode lexis c shown = codeMode lexis c cs := by
  by_cases htriple : (lexis.tripleQuotes && opensTriple (c :: cs)) = true
  · have hmode : codeMode lexis c cs =
        .inside 1 .code (.tripled c) := by rw [codeMode, if_pos htriple]
    rw [Bool.and_eq_true, opensTriple_iff] at htriple
    obtain ⟨hquotes, hc, rest, rfl⟩ := htriple
    rw [hmode, codeMode, if_pos]
    rw [hquotes, Bool.true_and, opensTriple_iff]
    exact ⟨hc, hkeep rest hmode rfl⟩
  · have hshown : ¬(lexis.tripleQuotes && opensTriple (c :: shown)) = true := by
      rw [Bool.and_eq_true, opensTriple_iff] at htriple ⊢
      rintro ⟨hquotes, hc, hprefix⟩
      have hspace : ' ' ∉ [c, c] := by
        rcases hc with rfl | rfl <;> decide
      exact htriple ⟨hquotes, hc, h.token_stands hspace hprefix⟩
    rw [codeMode, if_neg hshown, codeMode, if_neg htriple]

theorem codeMode_masked (lexis : Lexis) (c : Char) (cs : List Char) :
    codeMode lexis c (maskFrom lexis (codeMode lexis c cs) cs) = codeMode lexis c cs := by
  refine codeMode_blanked (blanked_maskFrom lexis _ cs) ?_
  rintro rest hmode rfl
  rw [hmode, maskFrom_inside_code]
  exact List.prefix_append [c, c] _

/-! ### The walk over the masked text -/

def quotes : List Char :=
  ['"', '\'', '\x60']

/-- The modes that a walk gets into, and what it knows there of the text to come. -/
inductive Reached : Mode → List Char → Prop
  | code (cs : List Char) : Reached .code cs
  | lineComment (cs : List Char) : Reached .lineComment cs
  | blockComment (cs : List Char) : Reached .blockComment cs
  | opener (n : Nat) (cs : List Char) : Reached (.inside n .comment .blockComment) cs
  | closer (n : Nat) (cs : List Char) : Reached (.inside n .comment .code) cs
  | quoted {q : Char} (hq : q ∈ quotes) (cs : List Char) : Reached (.quoted q) cs
  | tripled {q : Char} (hq : q ∈ quotes) (cs : List Char) : Reached (.tripled q) cs
  | openTriple {q : Char} (hq : q ∈ quotes) (n : Nat) (cs : List Char) :
      Reached (.inside n .code (.tripled q)) cs
  | closeTriple (n : Nat) (cs : List Char) : Reached (.inside n .code .code) cs
  | escaped {q : Char} (hq : q ∈ quotes) {cs : List Char} (hcs : cs.head? ≠ some '\n') :
      Reached (.inside 0 .literal (.quoted q)) cs
  | escapedTripled {q : Char} (hq : q ∈ quotes) {cs : List Char} (hcs : cs.head? ≠ some '\n') :
      Reached (.inside 0 .literal (.tripled q)) cs

/-- Where the walk over the masked text stands while the walk over the text is in a mode. -/
def Mode.shadow : Mode → Mode
  | .code | .lineComment | .blockComment => .code
  | .quoted q => .quoted q
  | .tripled q => .tripled q
  | .inside n .code after => .inside n .code after
  | .inside _ .comment _ => .code
  | .inside _ .literal after => after

/-- A mode that spaces do not end. -/
def Steady (lexis : Lexis) (mode : Mode) : Prop :=
  ∀ rest, (step lexis mode ' ' rest).2 = mode

theorem maskFrom_spaces {mode : Mode} (h : Steady lexis mode) (n : Nat) (rest : List Char) :
    maskFrom lexis mode (List.replicate n ' ' ++ rest) =
      List.replicate n ' ' ++ maskFrom lexis mode rest := by
  have hspace : blankOut ' ' = [' '] := rfl
  induction n with
  | zero => rfl
  | succ n ih =>
    rw [List.replicate_succ, List.cons_append, maskFrom_cons, h, ih, hspace, ite_self]
    rfl

/-- How the walk over the masked text follows a step over `c`, which gives it a region and goes on
in a mode that a walk gets into. -/
inductive Followed (lexis : Lexis) (mode : Mode) (c : Char) (cs : List Char) : Region × Mode → Prop
  /-- The character is blanked, and the other walk stays where it is. -/
  | hidden {region : Region} {next : Mode} (hnext : Reached next cs) (hc : c ≠ '\n')
      (hregion : region ≠ .code)
      (hsteady : Steady lexis mode.shadow) (hshadow : next.shadow = mode.shadow) :
      Followed lexis mode c cs (region, next)
  /-- A line feed stays in any case. -/
  | newline {region : Region} {next : Mode} (hnext : Reached next cs) (hc : c = '\n')
      (hshadow : ∀ rest, (step lexis mode.shadow '\n' rest).2 = next.shadow) :
      Followed lexis mode c cs (region, next)
  /-- The character is shown, and the other walk takes it for code too. -/
  | shown {next : Mode} (hnext : Reached next cs)
      (hshadow : step lexis mode.shadow c (maskFrom lexis next cs) = (.code, next.shadow)) :
      Followed lexis mode c cs (.code, next)

theorem Followed.reached {mode : Mode} {c : Char} {cs : List Char} {result : Region × Mode}
    (h : Followed lexis mode c cs result) : Reached result.2 cs := by
  cases h <;> assumption

theorem Followed.maskFrom_eq {mode : Mode} {c : Char} {cs : List Char}
    (h : Followed lexis mode c cs (step lexis mode c cs))
    (hrest : maskFrom lexis (step lexis mode c cs).2.shadow
      (maskFrom lexis (step lexis mode c cs).2 cs) =
      maskFrom lexis (step lexis mode c cs).2 cs) :
    maskFrom lexis mode.shadow (maskFrom lexis mode (c :: cs)) = maskFrom lexis mode (c :: cs) := by
  rw [maskFrom_cons lexis mode]
  generalize step lexis mode c cs = result at h hrest
  cases h with
  | hidden _ hc hregion hsteady hshadow =>
    rw [if_neg hregion, blankOut, if_neg (by simpa using hc), maskFrom_spaces hsteady, ← hshadow,
      hrest]
  | newline _ hc hshadow =>
    subst hc
    have hnewline : blankOut '\n' = ['\n'] := rfl
    rw [hnewline, ite_self, List.singleton_append, maskFrom_cons, hnewline, ite_self, hshadow,
      hrest]
    rfl
  | shown _ hshadow =>
    rw [if_pos rfl, List.singleton_append, maskFrom_cons, hshadow, if_pos rfl, hrest]
    rfl

/-! ### One step, mode by mode -/

theorem steady_code (h : lexis.Visible) : Steady lexis .code := by
  intro rest
  rw [step, stepCode_of_noComment (noComment_blank h (by decide) rest)]
  simp [codeMode, opensTriple, opensQuote]

theorem steady_quoted {q : Char} (hq : q ∈ quotes) : Steady lexis (.quoted q) := by
  intro rest
  simp only [quotes, List.mem_cons, List.not_mem_nil, or_false] at hq
  rcases hq with rfl | rfl | rfl <;> rfl

theorem steady_tripled {q : Char} (hq : q ∈ quotes) : Steady lexis (.tripled q) := by
  intro rest
  simp only [quotes, List.mem_cons, List.not_mem_nil, or_false] at hq
  rcases hq with rfl | rfl | rfl <;> rfl

theorem step_code_newline (h : lexis.Visible) (rest : List Char) :
    step lexis .code '\n' rest = (.code, .code) := by
  rw [step, stepCode_of_noComment (noComment_blank h (by decide) rest)]
  simp [codeMode, opensTriple, opensQuote]

theorem reached_codeMode (lexis : Lexis) (c : Char) (cs : List Char) :
    Reached (codeMode lexis c cs) cs := by
  rw [codeMode]
  split
  · rename_i htriple
    rw [Bool.and_eq_true, opensTriple_iff] at htriple
    refine .openTriple ?_ 1 cs
    rcases htriple.2.1 with rfl | rfl <;> decide
  · split
    · rename_i hquote
      simp only [opensQuote, Bool.or_eq_true, Bool.and_eq_true, beq_iff_eq] at hquote
      refine .quoted ?_ cs
      rcases hquote with (rfl | ⟨rfl, -⟩) | ⟨rfl, -⟩ <;> decide
    · exact .code cs

theorem followed_code (h : lexis.Visible) (c : Char) (cs : List Char) :
    Followed lexis .code c cs (step lexis .code c cs) := by
  rw [step]
  by_cases hcode : NoComment lexis (c :: cs)
  · have hmasked := stepCode_of_noComment
      (hcode.masked h (blanked_maskFrom lexis (codeMode lexis c cs) cs))
    rw [codeMode_masked] at hmasked
    have hshadow : (codeMode lexis c cs).shadow = codeMode lexis c cs := by
      rw [codeMode]
      split
      · rfl
      · split <;> rfl
    rw [stepCode_of_noComment hcode]
    refine .shown (reached_codeMode lexis c cs) ?_
    rw [hshadow]
    exact hmasked
  · obtain ⟨next, hstep, hnext⟩ := stepCode_of_comment hcode
    have hc : c ≠ '\n' := by
      rintro rfl
      exact hcode (noComment_blank h (by decide) cs)
    rw [hstep]
    rcases hnext with rfl | rfl | ⟨n, rfl⟩
    · exact .hidden (.lineComment cs) hc nofun (steady_code h) rfl
    · exact .hidden (.blockComment cs) hc nofun (steady_code h) rfl
    · exact .hidden (.opener n cs) hc nofun (steady_code h) rfl

/-- A comment is passed in code, whatever the mode after the step. -/
theorem followed_comment (h : lexis.Visible) {mode next : Mode} {cs : List Char} (c : Char)
    (hmode : mode.shadow = .code) (hnext : Reached next cs) (hshadow : next.shadow = .code) :
    Followed lexis mode c cs (.comment, next) := by
  by_cases hc : c = '\n'
  · refine .newline hnext hc ?_
    intro rest
    rw [hmode, hshadow, step_code_newline h]
  · exact .hidden hnext hc nofun (hmode ▸ steady_code h) (hshadow.trans hmode.symm)

theorem followed_lineComment (h : lexis.Visible) (c : Char) (cs : List Char) :
    Followed lexis .lineComment c cs (step lexis .lineComment c cs) := by
  rw [step]
  split
  · rename_i hc
    obtain rfl := beq_iff_eq.1 hc
    exact .shown (.code cs) (step_code_newline h _)
  · exact followed_comment h c rfl (.lineComment cs) rfl

theorem followed_blockComment (h : lexis.Visible) (c : Char) (cs : List Char) :
    Followed lexis .blockComment c cs (step lexis .blockComment c cs) := by
  rw [step]
  split
  · rw [Mode.skip]
    split
    · exact followed_comment h c rfl (.closer _ cs) rfl
    · exact followed_comment h c rfl (.code cs) rfl
  · exact followed_comment h c rfl (.blockComment cs) rfl

/-- After a backslash the next character is hidden, unless it ends the line. -/
theorem afterBackslash_cases (cs : List Char) (mode : Mode) :
    afterBackslash cs mode = mode ∨ afterBackslash cs mode = .inside 0 .literal mode ∧
    cs.head? ≠ some '\n' := by
  cases cs with
  | nil => exact .inl rfl
  | cons c cs =>
    rw [afterBackslash]
    split
    · exact .inl rfl
    · rename_i hc
      exact .inr ⟨rfl, by simpa using hc⟩

theorem followed_quoted {q : Char} (hq : q ∈ quotes) (c : Char) (cs : List Char) :
    Followed lexis (.quoted q) c cs (step lexis (.quoted q) c cs) := by
  have hsteady : Steady lexis (.quoted q) := steady_quoted hq
  by_cases hback : c = '\\'
  · subst hback
    have hstep : step lexis (.quoted q) '\\' cs = (.literal, afterBackslash cs (.quoted q)) := rfl
    rw [hstep]
    rcases afterBackslash_cases cs (.quoted q) with hmode | ⟨hmode, hcs⟩ <;> rw [hmode]
    · exact .hidden (.quoted hq cs) (by decide) nofun hsteady rfl
    · exact .hidden (.escaped hq hcs) (by decide) nofun hsteady rfl
  · -- no other step looks at the text to come
    have hsame : ∀ rest, step lexis (Mode.quoted q).shadow c rest =
        step lexis (.quoted q) c cs := by
      intro rest
      simp only [Mode.shadow, step, if_neg (show ¬(c == '\\') = true by simpa using hback)]
    by_cases hquote : c = q
    · have hstep : step lexis (.quoted q) c cs = (.code, .code) := by
        rw [step, if_neg (by simpa using hback), if_pos (by simpa using hquote)]
      rw [hstep] at hsame ⊢
      exact .shown (.code cs) (hsame _)
    · by_cases hc : c = '\n'
      · subst hc
        by_cases hends : q = '\x60'
        · have hstep : step lexis (.quoted q) '\n' cs =
              (.literal, .quoted q) := by simp [step, hends]
          rw [hstep] at hsame ⊢
          exact .newline (.quoted hq cs) rfl fun rest => by rw [hsame]; rfl
        · have hstep : step lexis (.quoted q) '\n' cs = (.literal, .code) := by
            simp [step, hends, hquote]
          rw [hstep] at hsame ⊢
          exact .newline (.code cs) rfl fun rest => by rw [hsame]; rfl
      · have hstep : step lexis (.quoted q) c cs = (.literal, .quoted q) := by
          simp [step, hback, hquote, hc]
        rw [hstep]
        exact .hidden (.quoted hq cs) hc nofun hsteady rfl

theorem followed_tripled {q : Char} (hq : q ∈ quotes) (c : Char) (cs : List Char) :
    Followed lexis (.tripled q) c cs (step lexis (.tripled q) c cs) := by
  have hsteady : Steady lexis (.tripled q) := steady_tripled hq
  have hline : q ≠ '\n' := by
    rintro rfl
    exact absurd hq (by decide)
  by_cases hback : c = '\\'
  · subst hback
    have hstep : step lexis (.tripled q) '\\' cs = (.literal, afterBackslash cs (.tripled q)) := rfl
    rw [hstep]
    rcases afterBackslash_cases cs (.tripled q) with hmode | ⟨hmode, hcs⟩ <;> rw [hmode]
    · exact .hidden (.tripled hq cs) (by decide) nofun hsteady rfl
    · exact .hidden (.escapedTripled hq hcs) (by decide) nofun hsteady rfl
  · have hstep : ∀ c rest, c ≠ '\\' → step lexis (.tripled q) c rest =
        if [q, q, q].isPrefixOf (c :: rest) then (.code, .inside 1 .code .code) else (.literal,
          .tripled q) := by
      intro c rest hback
      rw [step, if_neg (by simpa using hback)]
    rw [hstep c cs hback]
    split
    · rename_i hprefix
      -- the three quotes are shown, so the other walk sees the end of the literal too
      obtain ⟨rest, hrest⟩ := List.isPrefixOf_iff_prefix.1 hprefix
      obtain ⟨rfl, rfl⟩ := List.cons.inj hrest
      have hshown : maskFrom lexis (.inside 1 .code .code) ([q, q].append rest) =
          q :: q :: maskFrom lexis .code rest :=
        maskFrom_inside_code lexis .code q q rest
      refine .shown (.closeTriple 1 _) ?_
      rw [Mode.shadow, hstep q _ hback, hshown, if_pos (by simp)]
      rfl
    · by_cases hc : c = '\n'
      · refine .newline (.tripled hq cs) hc ?_
        intro rest
        rw [Mode.shadow, hstep '\n' rest (by decide), if_neg (by simp [hline])]
      · exact .hidden (.tripled hq cs) hc nofun hsteady rfl

/-- Every step of a walk can be followed over the masked text. -/
theorem Reached.followed (hlexis : lexis.Visible) {mode : Mode} {c : Char} {cs : List Char}
    (h : Reached mode (c :: cs)) : Followed lexis mode c cs (step lexis mode c cs) := by
  cases h with
  | code => exact followed_code hlexis c cs
  | lineComment => exact followed_lineComment hlexis c cs
  | blockComment => exact followed_blockComment hlexis c cs
  | opener n =>
    cases n with
    | zero => exact followed_comment hlexis c rfl (.blockComment cs) rfl
    | succ n => exact followed_comment hlexis c rfl (.opener n cs) rfl
  | closer n =>
    cases n with
    | zero => exact followed_comment hlexis c rfl (.code cs) rfl
    | succ n => exact followed_comment hlexis c rfl (.closer n cs) rfl
  | quoted hq => exact followed_quoted hq c cs
  | tripled hq => exact followed_tripled hq c cs
  | openTriple hq n =>
    cases n with
    | zero => exact .shown (.tripled hq cs) rfl
    | succ n => exact .shown (.openTriple hq n cs) rfl
  | closeTriple n =>
    cases n with
    | zero => exact .shown (.code cs) rfl
    | succ n => exact .shown (.closeTriple n cs) rfl
  | escaped hq hcs =>
    exact .hidden (.quoted hq cs) (by simpa using hcs) nofun (steady_quoted hq) rfl
  | escapedTripled hq hcs =>
    exact .hidden (.tripled hq cs) (by simpa using hcs) nofun (steady_tripled hq) rfl

theorem Reached.maskFrom_shadow (hlexis : lexis.Visible) {mode : Mode} {cs : List Char}
    (h : Reached mode cs) :
    maskFrom lexis mode.shadow (maskFrom lexis mode cs) = maskFrom lexis mode cs := by
  induction cs generalizing mode with
  | nil => rfl
  | cons c cs ih =>
    have hstep := h.followed hlexis
    exact hstep.maskFrom_eq (ih hstep.reached)

end Mask

theorem mask_mask {lexis : Lexis} (h : lexis.Visible) (text : List Char) :
    mask lexis (mask lexis text) = mask lexis text :=
  (Mask.Reached.code text).maskFrom_shadow h

end CodeSurvey
