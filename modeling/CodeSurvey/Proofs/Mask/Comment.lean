import CodeSurvey.Proofs.Mask.Idempotent

/-!
# Texts without comments

A text and the text without its comments have the same masked form. The walk over the text without
comments stays in code while the other one is in a comment; in code and in literals both stand at
the same characters.
-/
namespace CodeSurvey

namespace Mask

variable {lexis : Lexis}

/-- The text without comments, of a text that is walked from `mode` on. -/
def eraseFrom (lexis : Lexis) (mode : Mode) (cs : List Char) : List Char :=
  (regions lexis mode cs).flatMap fun p => if p.2 = .comment then blankOut p.1 else [p.1]

theorem eraseFrom_cons (lexis : Lexis) (mode : Mode) (c : Char) (cs : List Char) :
    eraseFrom lexis mode (c :: cs) =
      (if (step lexis mode c cs).1 = .comment then blankOut c else [c]) ++
        eraseFrom lexis (step lexis mode c cs).2 cs :=
  rfl

theorem blanked_eraseFrom (lexis : Lexis) (mode : Mode) (cs : List Char) :
    Blanked cs (eraseFrom lexis mode cs) := by
  induction cs generalizing mode with
  | nil => exact .nil
  | cons c cs ih =>
    rw [eraseFrom_cons]
    split
    · exact (ih _).blankOut c
    · exact .keep c (ih _)

/-- Where the walk over the text without comments stands while the walk over the text is in a
mode. -/
def Mode.uncommented : Mode → Mode
  | .lineComment | .blockComment => .code
  | .inside _ .comment _ => .code
  | mode => mode

/-- How the walk over the text without comments follows a step over `c`. -/
inductive Retraced (lexis : Lexis) (mode : Mode) (c : Char) (cs : List Char) : Region × Mode → Prop
  /-- The character is erased, and the other walk stays in code. -/
  | erased {next : Mode} (hnext : Reached next cs) (hmode : mode.uncommented = .code)
      (hcode : next.uncommented = .code) : Retraced lexis mode c cs (.comment, next)
  /-- The character stays, and the other walk takes the same step. -/
  | kept {region : Region} {next : Mode} (hnext : Reached next cs) (hregion : region ≠ .comment)
      (hstep : step lexis mode.uncommented c (eraseFrom lexis next cs) =
        (region, next.uncommented)) :
      Retraced lexis mode c cs (region, next)

theorem Retraced.reached {mode : Mode} {c : Char} {cs : List Char} {result : Region × Mode}
    (h : Retraced lexis mode c cs result) : Reached result.2 cs := by
  cases h <;> assumption

/-- Blanks of a comment are passed in code. -/
theorem maskFrom_blankOut (h : lexis.Visible) (c : Char) (cs : List Char) :
    maskFrom lexis .code (blankOut c ++ cs) = blankOut c ++ maskFrom lexis .code cs := by
  rw [blankOut]
  split
  · rename_i hc
    obtain rfl := beq_iff_eq.1 hc
    rw [List.singleton_append, maskFrom_cons, step_code_newline h]
    rfl
  · exact maskFrom_spaces (steady_code h) _ _

theorem Retraced.maskFrom_eq (hlexis : lexis.Visible) {mode : Mode} {c : Char} {cs : List Char}
    (h : Retraced lexis mode c cs (step lexis mode c cs))
    (hrest : maskFrom lexis (step lexis mode c cs).2.uncommented
      (eraseFrom lexis (step lexis mode c cs).2 cs) =
      maskFrom lexis (step lexis mode c cs).2 cs) :
    maskFrom lexis mode.uncommented (eraseFrom lexis mode (c :: cs)) =
      maskFrom lexis mode (c :: cs) := by
  rw [maskFrom_cons lexis mode, eraseFrom_cons]
  generalize step lexis mode c cs = result at h hrest
  cases h with
  | erased _ hmode hcode =>
    rw [if_pos rfl, if_neg (by simp), hmode, maskFrom_blankOut hlexis, ← hrest, hcode]
  | kept _ hregion hstep =>
    rw [if_neg hregion, List.singleton_append, maskFrom_cons, hstep, hrest]

/-! ### One step, mode by mode -/

theorem retraced_code (h : lexis.Visible) (c : Char) (cs : List Char) :
    Retraced lexis .code c cs (step lexis .code c cs) := by
  rw [step]
  by_cases hcode : NoComment lexis (c :: cs)
  · have hblanked := blanked_eraseFrom lexis (codeMode lexis c cs) cs
    have hmode : codeMode lexis c (eraseFrom lexis (codeMode lexis c cs) cs) =
        codeMode lexis c cs := by
      refine codeMode_blanked hblanked ?_
      rintro rest hmode rfl
      rw [hmode]
      exact List.prefix_append [c, c] _
    have hsame : (codeMode lexis c cs).uncommented = codeMode lexis c cs := by
      rw [codeMode]
      split
      · rfl
      · split <;> rfl
    rw [stepCode_of_noComment hcode]
    refine .kept (reached_codeMode lexis c cs) (by decide) ?_
    have hstep := stepCode_of_noComment (hcode.masked h hblanked)
    rw [hmode] at hstep
    rw [hsame]
    exact hstep
  · obtain ⟨next, hstep, hnext⟩ := stepCode_of_comment hcode
    rw [hstep]
    rcases hnext with rfl | rfl | ⟨n, rfl⟩
    · exact .erased (.lineComment cs) rfl rfl
    · exact .erased (.blockComment cs) rfl rfl
    · exact .erased (.opener n cs) rfl rfl

theorem retraced_lineComment (h : lexis.Visible) (c : Char) (cs : List Char) :
    Retraced lexis .lineComment c cs (step lexis .lineComment c cs) := by
  rw [step]
  split
  · rename_i hc
    obtain rfl := beq_iff_eq.1 hc
    exact .kept (.code cs) (by decide) (step_code_newline h _)
  · exact .erased (.lineComment cs) rfl rfl

theorem retraced_blockComment (c : Char) (cs : List Char) :
    Retraced lexis .blockComment c cs (step lexis .blockComment c cs) := by
  rw [step]
  split
  · rw [Mode.skip]
    split
    · exact .erased (.closer _ cs) rfl rfl
    · exact .erased (.code cs) rfl rfl
  · exact .erased (.blockComment cs) rfl rfl

/-- A backslash hides the same character in the text without comments, since none starts there. -/
theorem afterBackslash_eraseFrom {mode : Mode} (hmode : ∀ c cs, (step lexis mode c cs).1 ≠ .comment)
    (cs : List Char) :
    afterBackslash (eraseFrom lexis (afterBackslash cs mode) cs) mode = afterBackslash cs mode := by
  cases cs with
  | nil => rfl
  | cons c cs =>
    rw [afterBackslash]
    split
    · rename_i hc
      rw [eraseFrom_cons, if_neg (hmode c cs), List.singleton_append, afterBackslash, if_pos hc]
    · rename_i hc
      have hkept : eraseFrom lexis (.inside 0 .literal mode) (c :: cs) =
          c :: eraseFrom lexis mode cs := rfl
      rw [hkept, afterBackslash, if_neg hc]

theorem retraced_quoted {q : Char} (hq : q ∈ quotes) (c : Char) (cs : List Char) :
    Retraced lexis (.quoted q) c cs (step lexis (.quoted q) c cs) := by
  have hliteral : ∀ c cs, (step lexis (.quoted q) c cs).1 ≠ .comment := by
    intro c cs
    rw [step]
    split_ifs <;> simp
  by_cases hback : c = '\\'
  · subst hback
    have hnext : Reached (afterBackslash cs (.quoted q)) cs ∧
        (afterBackslash cs (.quoted q)).uncommented = afterBackslash cs (.quoted q) := by
      rcases afterBackslash_cases cs (.quoted q) with hmode | ⟨hmode, hcs⟩ <;> rw [hmode]
      · exact ⟨.quoted hq cs, rfl⟩
      · exact ⟨.escaped hq hcs, rfl⟩
    refine .kept hnext.1 (by decide) ?_
    rw [hnext.2]
    exact congrArg (Prod.mk Region.literal) (afterBackslash_eraseFrom hliteral cs)
  · -- no other step looks at the text to come
    have hsame : ∀ rest, step lexis (.quoted q) c rest = step lexis (.quoted q) c cs := by
      intro rest
      simp only [step, if_neg (show ¬(c == '\\') = true by simpa using hback)]
    have hregion := hliteral c cs
    have hnext : Reached (step lexis (.quoted q) c cs).2 cs ∧
        (step lexis (.quoted q) c cs).2.uncommented = (step lexis (.quoted q) c cs).2 := by
      rw [step, if_neg (by simpa using hback)]
      split_ifs
      · exact ⟨.code cs, rfl⟩
      · exact ⟨.code cs, rfl⟩
      · exact ⟨.quoted hq cs, rfl⟩
    have hstep := hsame (eraseFrom lexis (step lexis (.quoted q) c cs).2 cs)
    generalize step lexis (.quoted q) c cs = result at hnext hstep hregion
    exact .kept hnext.1 hregion (by rw [hnext.2]; exact hstep)

theorem retraced_tripled {q : Char} (hq : q ∈ quotes) (c : Char) (cs : List Char) :
    Retraced lexis (.tripled q) c cs (step lexis (.tripled q) c cs) := by
  have hliteral : ∀ c cs, (step lexis (.tripled q) c cs).1 ≠ .comment := by
    intro c cs
    rw [step]
    split_ifs <;> simp
  by_cases hback : c = '\\'
  · subst hback
    have hnext : Reached (afterBackslash cs (.tripled q)) cs ∧
        (afterBackslash cs (.tripled q)).uncommented = afterBackslash cs (.tripled q) := by
      rcases afterBackslash_cases cs (.tripled q) with hmode | ⟨hmode, hcs⟩ <;> rw [hmode]
      · exact ⟨.tripled hq cs, rfl⟩
      · exact ⟨.escapedTripled hq hcs, rfl⟩
    refine .kept hnext.1 (by decide) ?_
    rw [hnext.2]
    exact congrArg (Prod.mk Region.literal) (afterBackslash_eraseFrom hliteral cs)
  · have hstep : ∀ rest, step lexis (.tripled q) c rest =
        if [q, q, q].isPrefixOf (c :: rest) then (.code, .inside 1 .code .code) else (.literal,
          .tripled q) := by
      intro rest
      rw [step, if_neg (by simpa using hback)]
    rw [hstep cs]
    split
    · rename_i hprefix
      obtain ⟨rest, hrest⟩ := List.isPrefixOf_iff_prefix.1 hprefix
      obtain ⟨rfl, rfl⟩ := List.cons.inj hrest
      have hkept : eraseFrom lexis (.inside 1 .code .code) ([q, q].append rest) =
          q :: q :: eraseFrom lexis .code rest := rfl
      refine .kept (.closeTriple 1 _) (by decide) ?_
      rw [Mode.uncommented, hstep, hkept, if_pos (by simp)]
      · rfl
      all_goals simp
    · rename_i hprefix
      refine .kept (.tripled hq cs) (by decide) ?_
      have herased : ¬[q, q, q].isPrefixOf (c :: eraseFrom lexis (.tripled q) cs) = true := by
        rw [List.isPrefixOf_iff_prefix] at hprefix ⊢
        have hspace : ' ' ∉ [q, q, q] := by
          simp only [quotes, List.mem_cons, List.not_mem_nil, or_false] at hq
          rcases hq with rfl | rfl | rfl <;> decide
        exact fun h => hprefix ((Blanked.keep c (blanked_eraseFrom lexis _ cs)).token_stands hspace
          h)
      have hsame := hstep (eraseFrom lexis (.tripled q) cs)
      rw [if_neg herased] at hsame
      exact hsame

/-- Every step of a walk can be retraced over the text without comments. -/
theorem Reached.retraced (hlexis : lexis.Visible) {mode : Mode} {c : Char} {cs : List Char}
    (h : Reached mode (c :: cs)) : Retraced lexis mode c cs (step lexis mode c cs) := by
  cases h with
  | code => exact retraced_code hlexis c cs
  | lineComment => exact retraced_lineComment hlexis c cs
  | blockComment => exact retraced_blockComment c cs
  | opener n =>
    cases n with
    | zero => exact .erased (.blockComment cs) rfl rfl
    | succ n => exact .erased (.opener n cs) rfl rfl
  | closer n =>
    cases n with
    | zero => exact .erased (.code cs) rfl rfl
    | succ n => exact .erased (.closer n cs) rfl rfl
  | quoted hq => exact retraced_quoted hq c cs
  | tripled hq => exact retraced_tripled hq c cs
  | openTriple hq n =>
    cases n with
    | zero => exact .kept (.tripled hq cs) (by decide) rfl
    | succ n => exact .kept (.openTriple hq n cs) (by decide) rfl
  | closeTriple n =>
    cases n with
    | zero => exact .kept (.code cs) (by decide) rfl
    | succ n => exact .kept (.closeTriple n cs) (by decide) rfl
  | escaped hq => exact .kept (.quoted hq cs) (by decide) rfl
  | escapedTripled hq => exact .kept (.tripled hq cs) (by decide) rfl

theorem Reached.maskFrom_eraseFrom (hlexis : lexis.Visible) {mode : Mode} {cs : List Char}
    (h : Reached mode cs) :
    maskFrom lexis mode.uncommented (eraseFrom lexis mode cs) = maskFrom lexis mode cs := by
  induction cs generalizing mode with
  | nil => rfl
  | cons c cs ih =>
    have hstep := h.retraced hlexis
    exact hstep.maskFrom_eq hlexis (ih hstep.reached)

end Mask

theorem blanked_eraseComments (lexis : Lexis) (text : List Char) :
    Mask.Blanked text (eraseComments lexis text) :=
  Mask.blanked_eraseFrom lexis .code text

/-- Without its comments a text looks the same once it is masked. -/
theorem mask_eraseComments {lexis : Lexis} (h : lexis.Visible) (text : List Char) :
    mask lexis (eraseComments lexis text) = mask lexis text :=
  (Mask.Reached.code text).maskFrom_eraseFrom h

end CodeSurvey
