import CodeSurvey.Proofs.Mask.Comment
import CodeSurvey.Proofs.Mask.Splice

/-!
# Bytes and their regions

Every byte of a text has the region of its character. Masking shows a visible character where its
region is code. Where a text has no comments, it stays as it is when comments are erased, and next
to such a stretch a comment starts or ends with a slash, so the edge of a word stays where it is.
-/
namespace CodeSurvey

namespace Mask

/-- The region of every byte of a text that is walked from `mode` on. -/
def byteRegions (lexis : Lexis) (mode : Mode) (cs : List Char) : List Region :=
  (regions lexis mode cs).flatMap fun p => List.replicate p.1.utf8Size p.2

variable {lexis : Lexis} {mode : Mode} {c : Char} {cs : List Char}

theorem byteRegions_cons (lexis : Lexis) (mode : Mode) (c : Char) (cs : List Char) :
    byteRegions lexis mode (c :: cs) =
      List.replicate c.utf8Size (step lexis mode c cs).1 ++
      byteRegions lexis (step lexis mode c cs).2 cs :=
  rfl

theorem byteRegions_here {i : Nat} (h : i < c.utf8Size) :
    (byteRegions lexis mode (c :: cs))[i]? = some (step lexis mode c cs).1 := by
  rw [byteRegions_cons, List.getElem?_append_left (by simpa using h),
    List.getElem?_replicate_of_lt h]

theorem byteRegions_later (i : Nat) :
    (byteRegions lexis mode (c :: cs))[c.utf8Size + i]? =
      (byteRegions lexis (step lexis mode c cs).2 cs)[i]? := by
  rw [byteRegions_cons, List.getElem?_append_right (by simp), List.length_replicate,
    Nat.add_sub_cancel_left]

theorem byteRegions_append (lexis : Lexis) (mode : Mode) (before rest : List Char) (i : Nat) :
    (byteRegions lexis mode (before ++ rest))[Text.size before + i]? =
      (byteRegions lexis (modeAfter lexis mode before rest) rest)[i]? := by
  induction before generalizing mode with
  | nil => rw [Text.size_nil, Nat.zero_add, List.nil_append, modeAfter]
  | cons c before ih =>
    rw [List.cons_append, Text.size_cons, Nat.add_assoc, byteRegions_later, ih, modeAfter]

end Mask

/-- The region of the byte at an offset. -/
def regionAt? (lexis : Lexis) (text : List Char) (offset : Nat) : Option Region :=
  (Mask.byteRegions lexis .code text)[offset]?

/-- A visible character is shown where it is code. -/
theorem shown_iff_code (lexis : Lexis) {x : Char} (hx : Text.isBlank x = false)
    (before after : List Char) :
    (Text.dropBytes (Text.size before) (mask lexis (before ++ x :: after))).head? = some x ↔
      regionAt? lexis (before ++ x :: after) (Text.size before) = some .code := by
  have hmask : mask lexis (before ++ x :: after) =
      Mask.maskFrom lexis .code (before ++ x :: after) := rfl
  have hregion := Mask.byteRegions_append lexis .code before (x :: after) 0
  rw [Mask.byteRegions_here x.utf8Size_pos, Nat.add_zero] at hregion
  rw [regionAt?, hregion, hmask, Mask.maskFrom_append,
    ← (Mask.blanked_maskBefore lexis .code before (x :: after)).size_eq, Text.dropBytes_append,
    Mask.maskFrom_cons, Option.some.injEq]
  have hne : ∀ c, Text.isBlank c = true → x ≠ c := by
    rintro c hc rfl
    rw [hx] at hc
    cases hc
  by_cases hcode : (Mask.step lexis (Mask.modeAfter lexis .code before (x :: after)) x after).1 =
    .code
  · simp [hcode]
  · obtain ⟨n, hn⟩ : ∃ n, x.utf8Size = n + 1 := Nat.exists_eq_add_one.2 x.utf8Size_pos
    simp [hcode, Mask.blankOut, hne '\n' rfl, hn, List.replicate_succ, Ne.symm (hne ' ' rfl)]

namespace Mask

/-! ### Where comments start and end -/

@[simp] def Mode.inComment : Mode → Bool
  | .lineComment | .blockComment | .inside _ .comment _ => true
  | _ => false

/-- Of the token that closes a comment the slash is still to come. -/
def Closing (mode : Mode) (cs : List Char) : Prop :=
  ∀ n, mode = .inside n .comment .code → n = 0 ∧ cs.head? = some '/'

/-- A mode that a walk gets into in front of the text. -/
structure Placed (mode : Mode) (cs : List Char) : Prop where
  reached : Reached mode cs
  closing : Closing mode cs

/-- What a step over `c` tells about the comments around it. -/
inductive Crossing (mode : Mode) (c : Char) (cs : List Char) : Region × Mode → Prop
  | erased {next : Mode} (hopens : mode.inComment = false → c = '/')
      (hcloses : next.inComment = false → c = '/')
      (hclosing : Closing next cs) : Crossing mode c cs (.comment, next)
  | kept {region : Region} {next : Mode} (hregion : region ≠ .comment)
      (hnext : next.inComment = false)
      (hends : mode.inComment = true → c = '\n') : Crossing mode c cs (region, next)

theorem Crossing.closing {result : Region × Mode} (h : Crossing mode c cs result) :
    Closing result.2 cs := by
  cases h with
  | erased _ _ hclosing => exact hclosing
  | @kept _ next _ hnext _ =>
    rintro n rfl
    cases hnext

theorem slash_of_comment (h : ¬NoComment JavaScript.lexis (c :: cs)) : c = '/' := by
  by_contra hslash
  refine h fun token htoken hprefix => ?_
  have hopeners : token = ['/', '/'] ∨ token = ['/', '*'] := by
    simpa [Lexis.commentOpeners, JavaScript.lexis] using htoken
  rcases hopeners with rfl | rfl
  · exact hslash (List.cons_prefix_cons.1 hprefix).1.symm
  · exact hslash (List.cons_prefix_cons.1 hprefix).1.symm

theorem crossing_code (c : Char) (cs : List Char) :
    Crossing .code c cs (step JavaScript.lexis .code c cs) := by
  rw [step]
  by_cases hcode : NoComment JavaScript.lexis (c :: cs)
  · have hnext : (codeMode JavaScript.lexis c cs).inComment = false := by
      rw [codeMode]
      split
      · rfl
      · split <;> rfl
    rw [stepCode_of_noComment hcode]
    exact .kept (by decide) hnext (by simp)
  · have hslash := slash_of_comment hcode
    obtain ⟨next, hstep, hnext⟩ := stepCode_of_comment hcode
    rw [hstep]
    refine .erased (fun _ => hslash) (fun _ => hslash) ?_
    rcases hnext with rfl | rfl | ⟨n, rfl⟩ <;> simp [Closing]

theorem crossing_lineComment (c : Char) (cs : List Char) :
    Crossing .lineComment c cs (step JavaScript.lexis .lineComment c cs) := by
  rw [step]
  split
  · rename_i hc
    exact .kept (by decide) rfl fun _ => beq_iff_eq.1 hc
  · exact .erased (by simp) (by simp) (by simp [Closing])

theorem crossing_blockComment (c : Char) (cs : List Char) :
    Crossing .blockComment c cs (step JavaScript.lexis .blockComment c cs) := by
  by_cases hclose : ['*', '/'].isPrefixOf (c :: cs) = true
  · obtain ⟨rest, hrest⟩ := List.isPrefixOf_iff_prefix.1 hclose
    obtain ⟨rfl, rfl⟩ := List.cons.inj hrest
    refine .erased (by simp) (by simp [Mode.skip]) fun n hn => ?_
    cases hn
    exact ⟨rfl, rfl⟩
  · have hstep : step JavaScript.lexis .blockComment c cs = (.comment, .blockComment) := by
      rw [step, JavaScript.lexis, Option.filter_some, if_neg hclose]
    rw [hstep]
    exact .erased (by simp) (by simp) (by simp [Closing])

theorem inComment_afterBackslash {mode : Mode} (h : mode.inComment = false) (cs : List Char) :
    (afterBackslash cs mode).inComment = false := by
  rcases afterBackslash_cases cs mode with hnext | ⟨hnext, -⟩ <;> rw [hnext]
  · exact h
  · rfl

theorem crossing_quoted (q c : Char) (cs : List Char) :
    Crossing (.quoted q) c cs (step JavaScript.lexis (.quoted q) c cs) := by
  rw [step]
  split_ifs
  · exact .kept (by decide) (inComment_afterBackslash rfl cs) (by simp)
  · exact .kept (by decide) rfl (by simp)
  · exact .kept (by decide) rfl (by simp)
  · exact .kept (by decide) rfl (by simp)

theorem crossing_tripled (q c : Char) (cs : List Char) :
    Crossing (.tripled q) c cs (step JavaScript.lexis (.tripled q) c cs) := by
  rw [step]
  split_ifs
  · exact .kept (by decide) (inComment_afterBackslash rfl cs) (by simp)
  · exact .kept (by decide) rfl (by simp)
  · exact .kept (by decide) rfl (by simp)

theorem Placed.crossing (h : Placed mode (c :: cs)) :
    Crossing mode c cs (step JavaScript.lexis mode c cs) := by
  cases h.reached with
  | code => exact crossing_code c cs
  | lineComment => exact crossing_lineComment c cs
  | blockComment => exact crossing_blockComment c cs
  | opener n => cases n <;> exact .erased (by simp) (by simp) (by simp [Closing])
  | closer n =>
    obtain ⟨rfl, hslash⟩ := h.closing n rfl
    exact .erased (by simp) (fun _ => Option.some.inj hslash) (by simp [Closing])
  | @quoted q => exact crossing_quoted q c cs
  | @tripled q => exact crossing_tripled q c cs
  | openTriple _ n => cases n <;> exact .kept (by decide) rfl (by simp)
  | closeTriple n => cases n <;> exact .kept (by decide) rfl (by simp)
  | escaped => exact .kept (by decide) rfl (by simp)
  | escapedTripled => exact .kept (by decide) rfl (by simp)

theorem Placed.next (h : Placed mode (c :: cs)) : Placed (step JavaScript.lexis mode c cs).2 cs :=
  ⟨(h.reached.retraced Language.javaScript.visible_lexis).reached, h.crossing.closing⟩

theorem placed_start (text : List Char) : Placed .code text :=
  ⟨.code text, by simp [Closing]⟩

/-! ### Stretches without comments -/

/-- Outside comments, the edge of a word is where it is without them. -/
theorem Placed.head?_eraseFrom (h : Placed mode cs) (hmode : mode.inComment = false) :
    (eraseFrom JavaScript.lexis mode cs).head?.any Text.isWord = cs.head?.any Text.isWord := by
  cases cs with
  | nil => rfl
  | cons c cs =>
    have hcross := h.crossing
    rw [eraseFrom_cons]
    generalize step JavaScript.lexis mode c cs = result at hcross
    cases hcross with
    | erased hopens =>
      obtain rfl := hopens hmode
      rfl
    | kept hregion =>
      rw [if_neg hregion]
      rfl

/-- The text up to the first character of a comment stays. -/
theorem Placed.exists_stretch (h : Placed mode cs) :
    ∃ shared rest next, cs = shared ++ rest ∧
      eraseFrom JavaScript.lexis mode cs = shared ++ eraseFrom JavaScript.lexis next rest ∧
      Placed next rest ∧
      (shared = [] ∧ next = mode ∨ shared ≠ [] ∧ next.inComment = false) ∧
      (rest ≠ [] → (byteRegions JavaScript.lexis mode cs)[Text.size shared]? = some .comment) := by
  induction cs generalizing mode with
  | nil => exact ⟨[], [], mode, rfl, rfl, h, .inl ⟨rfl, rfl⟩, by simp⟩
  | cons c cs ih =>
    by_cases hregion : (step JavaScript.lexis mode c cs).1 = .comment
    · refine ⟨[], c :: cs, mode, rfl, rfl, h, .inl ⟨rfl, rfl⟩, fun _ => ?_⟩
      rw [Text.size_nil, byteRegions_here c.utf8Size_pos, hregion]
    · obtain ⟨shared, rest, next, hcs, herased, hplaced, hnext, hrest⟩ := ih h.next
      have hstep : (step JavaScript.lexis mode c cs).2.inComment = false := by
        have hcross := h.crossing
        generalize step JavaScript.lexis mode c cs = result at hcross hregion
        cases hcross with
        | erased => exact absurd rfl hregion
        | kept _ hnext => exact hnext
      refine ⟨c :: shared, rest, next, by rw [hcs, List.cons_append], ?_, hplaced,
        .inr ⟨by simp, ?_⟩, fun hne => ?_⟩
      · rw [eraseFrom_cons, if_neg hregion, herased]
        rfl
      · rcases hnext with ⟨-, rfl⟩ | ⟨-, hnext⟩
        · exact hstep
        · exact hnext
      · rw [Text.size_cons, byteRegions_later, hrest hne]

end Mask

end CodeSurvey
