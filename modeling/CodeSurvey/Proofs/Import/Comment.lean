import CodeSurvey.Proofs.Mask.Place
import CodeSurvey.Proofs.Pattern.Ending
import CodeSurvey.Proofs.Pattern.Window

/-!
# Imports and comments

Import statements are looked for in the text with its comments, and a statement counts if its first
word stands in code. So an import that is only mentioned in a comment is not reported. But a
statement may run through a comment, or start in one: as long as none does, the imports are those of
the text without comments.
-/
namespace CodeSurvey

/-- No byte of the stretch belongs to a comment. -/
def Capture.OutsideComments (lexis : Lexis) (text : List Char) (c : Capture) : Prop :=
  ∀ i < c.stop.offset, c.start.offset ≤ i → regionAt? lexis text i ≠ some .comment

/-- Every byte of the stretch belongs to a comment. -/
def Capture.InsideComments (lexis : Lexis) (text : List Char) (c : Capture) : Prop :=
  ∀ i < c.stop.offset, c.start.offset ≤ i → regionAt? lexis text i = some .comment

instance (lexis : Lexis) (text : List Char) (c : Capture) :
    Decidable (c.OutsideComments lexis text) :=
  inferInstanceAs
    (Decidable (∀ i < c.stop.offset, c.start.offset ≤ i → regionAt? lexis text i ≠ some .comment))

instance (lexis : Lexis) (text : List Char) (c : Capture) :
    Decidable (c.InsideComments lexis text) :=
  inferInstanceAs
    (Decidable (∀ i < c.stop.offset, c.start.offset ≤ i → regionAt? lexis text i = some .comment))

namespace JavaScript

open Pattern Mask

/-- What all forms of imports have in common. -/
structure IsImportForm (p : Pattern) : Prop where
  plain : p.isPlain = true
  nonempty : p.nullable = false
  newline : p.opensWith '\n' = false
  visible : p.Needs fun c => !Text.isBlank c

/-- The matches of the second list are those of the first one, without those that lie inside
comments. -/
inductive Recurs (text : List Char) : List Match → List Match → Prop
  | nil : Recurs text [] []
  | same {m n : Match} {ms ns : List Match} (h : m.Same n) (hrest : Recurs text ms ns) :
      Recurs text (m :: ms) (n :: ns)
  | inside {m : Match} {ms ns : List Match} (h : m.whole.InsideComments lexis text)
      (hrest : Recurs text ms ns) :
      Recurs text (m :: ms) ns

/-- The characters in front of a place, in the text and in the text without comments. -/
def Alike (mode : Mode) (prior prior' : Option Char) : Prop :=
  prior' = prior ∨ prior' = some ' ' ∧ ∃ x, prior = some x ∧ x ≠ '\n' ∧
  (mode.inComment = false → x = '/')

/-- Two searches stand at one place, the second one in the text without comments. No match of the
second one runs into a comment ahead, and the first one, if it is not to resume at the same offset,
is to resume in the same comment. -/
structure Abreast (text : List Char) (mode : Mode) (offset : Nat) (prior prior' : Option Char)
    (resume resume' : Nat) (cs : List Char) : Prop where
  placed : Placed mode cs
  prior : Alike mode prior prior'
  regions : ∀ i, (byteRegions lexis mode cs)[i]? = regionAt? lexis text (offset + i)
  ahead : ∀ i < resume', offset ≤ i → regionAt? lexis text i ≠ some .comment
  resume : resume = resume' ∨ resume' ≤ offset ∧ ∀ i < resume, offset ≤ i →
    regionAt? lexis text i = some .comment

section Search

variable {text : List Char} {mode : Mode} {offset resume resume' : Nat} {prior prior' : Option Char}
  {c : Char}
  {cs : List Char} {p : Pattern}

theorem alike_blankOut {next : Mode} (hcloses : next.inComment = false → c = '/')
    (prior' : Option Char) :
    Alike next (some c) ((blankOut c).getLast?.or prior') := by
  by_cases hc : c = '\n'
  · subst hc
    exact .inl rfl
  · obtain ⟨n, hn⟩ : ∃ n, c.utf8Size = n + 1 := Nat.exists_eq_add_one.2 c.utf8Size_pos
    refine .inr ⟨?_, c, rfl, hc, hcloses⟩
    simp [blankOut, hc, hn, List.getLast?_replicate]

/-- One place further. What is in front of it stays alike, as a comment ends with a slash. -/
theorem Abreast.next (h : Abreast text mode offset prior prior' resume resume' (c :: cs))
    {shown : List Char} (hshown : shown =
      if (step lexis mode c cs).1 = .comment then blankOut c else [c]) {stop stop' : Nat}
    (hahead : ∀ i < stop', offset + c.utf8Size ≤ i → regionAt? lexis text i ≠ some .comment)
    (hresume : stop = stop' ∨ stop' ≤ offset + c.utf8Size ∧
      ∀ i < stop, offset + c.utf8Size ≤ i → regionAt? lexis text i = some .comment) :
    Abreast text (step lexis mode c cs).2 (offset + c.utf8Size) (some c)
      (shown.getLast?.or prior') stop stop' cs := by
  refine ⟨h.placed.next, ?_, ?_, hahead, hresume⟩
  · have hcross := h.placed.crossing
    generalize step lexis mode c cs = result at hcross hshown
    cases hcross with
    | erased _ hcloses =>
      rw [hshown, if_pos rfl]
      exact alike_blankOut hcloses prior'
    | kept hregion =>
      rw [hshown, if_neg hregion]
      exact .inl rfl
  · intro i
    rw [← byteRegions_later, h.regions, Nat.add_assoc]

theorem Abreast.region (h : Abreast text mode offset prior prior' resume resume' (c :: cs))
    {i : Nat} (hi : i < c.utf8Size) : regionAt? lexis text (offset + i) =
      some (step lexis mode c cs).1 := by
  rw [← h.regions, byteRegions_here hi]

/-- Behind a comment that does not end with the line stands a slash. -/
theorem Abreast.prior_eq (h : Abreast text mode offset prior prior' resume resume' (c :: cs))
    (hregion : (step lexis mode c cs).1 ≠ .comment) (hc : c ≠ '\n') :
    prior' = prior ∨ prior' = some ' ' ∧ prior = some '/' := by
  rcases h.prior with hsame | ⟨hspace, x, hprior, -, hslash⟩
  · exact .inl hsame
  · have hcross := h.placed.crossing
    have hmode : mode.inComment = false := by
      generalize step lexis mode c cs = result at hcross hregion
      cases hcross with
      | erased => exact absurd rfl hregion
      | kept _ _ hends => exact Bool.eq_false_iff.2 fun hmode => hc (hends hmode)
    exact .inr ⟨hspace, by rw [hprior, hslash hmode]⟩

/-- At a character that is no part of a comment, and no line feed, the texts read the same up to the
next comment. -/
theorem Abreast.exists_agree (h : Abreast text mode offset prior prior' resume resume' (c :: cs))
    (hregion : (step lexis mode c cs).1 ≠ .comment) (hc : c ≠ '\n') :
    ∃ stop, Cursor.Agree stop ⟨offset, prior, c :: cs⟩
      ⟨offset, prior', eraseFrom lexis mode (c :: cs)⟩ ∧
      (stop = offset + Text.size (c :: cs) ∨ offset ≤ stop ∧
        regionAt? lexis text stop = some .comment) := by
  obtain ⟨shared, rest, next, hcs, herased, hplaced, hnext, hrest⟩ := h.placed.exists_stretch
  have hoff : next.inComment = false := by
    rcases hnext with ⟨rfl, -⟩ | ⟨-, hnext⟩
    · obtain rfl : rest = c :: cs := hcs.symm
      have hhere := hrest (by simp)
      rw [Text.size_nil, byteRegions_here c.utf8Size_pos, Option.some.injEq] at hhere
      exact absurd hhere hregion
    · exact hnext
  have hprior := h.prior_eq hregion hc
  refine ⟨offset + Text.size shared, ⟨rfl, ?_, ?_, shared, rest, _, hcs, herased, rfl, ?_⟩, ?_⟩
  · rcases hprior with rfl | ⟨rfl, rfl⟩ <;> rfl
  · rcases hprior with rfl | ⟨rfl, rfl⟩ <;> rfl
  · exact hplaced.head?_eraseFrom hoff
  · cases rest with
    | nil => exact .inl (by rw [hcs, List.append_nil])
    | cons x rest => exact .inr ⟨by omega, by rw [← h.regions]; exact hrest (by simp)⟩

/-- A match of either text that stays outside comments stays where the texts read the same. -/
theorem le_of_outside {d : Cursor} {m : Match} {stop : Nat} (hm : p.matchAt? d = some m)
    (hout : m.whole.OutsideComments lexis text)
    (hstop : stop = d.offset + Text.size d.rest ∨ d.offset ≤ stop ∧
      regionAt? lexis text stop = some .comment) :
    m.whole.stop.offset ≤ stop := by
  obtain ⟨t, ht, rfl⟩ := exists_way_of_matchAt? hm
  rcases hstop with rfl | ⟨hle, hcomment⟩
  · obtain ⟨read, hread⟩ := reads_of_mem_ways ht
    have hoffset : t.cursor.offset = d.offset + Text.size read := hread.offset
    have hrest : d.rest = read ++ t.cursor.rest := hread.rest
    rw [hrest, Text.size_append]
    dsimp only
    omega
  · exact Nat.le_of_not_lt fun hlt => hout stop hlt hle hcomment

theorem IsImportForm.lt_stop (hp : IsImportForm p) {d : Cursor} {m : Match}
    (hm : p.matchAt? d = some m) :
    m.whole.start = d ∧ d.offset < m.whole.stop.offset ∧ d.rest.head? ≠ some '\n' := by
  obtain ⟨hread, hopens⟩ := opensAs_of_matchAt? hm
  obtain ⟨t, -, rfl⟩ := exists_way_of_matchAt? hm
  cases htext : (Capture.mk d t.cursor).text with
  | nil =>
    have hnull := hopens.nullable htext
    rw [hp.nonempty] at hnull
    cases hnull
  | cons x xs =>
    rw [htext] at hread
    refine ⟨rfl, ?_, ?_⟩
    · have hoffset : t.cursor.offset = d.offset + Text.size (x :: xs) := hread.offset
      have hpos := x.utf8Size_pos
      rw [Text.size_cons] at hoffset
      dsimp only
      omega
    · rw [hread.rest]
      rintro hx
      obtain rfl : x = '\n' := Option.some.inj hx
      have hnewline := hopens.opens _ xs htext
      rw [hp.newline] at hnewline
      cases hnewline

/-- Outside comments both texts have the same match, or none. -/
theorem Abreast.same_match (hp : IsImportForm p)
    (h : Abreast text mode offset prior prior' resume resume' (c :: cs))
    (hregion : (step lexis mode c cs).1 ≠ .comment)
      (ht : ∀ m, p.matchAt? ⟨offset, prior, c :: cs⟩ = some m →
      m.whole.OutsideComments lexis text ∨ m.whole.InsideComments lexis text)
    (he : ∀ n, p.matchAt? ⟨offset, prior', c :: eraseFrom lexis (step lexis mode c cs).2 cs⟩ =
      some n →
      n.whole.OutsideComments lexis text) :
    (p.matchAt? ⟨offset, prior, c :: cs⟩ = none ∧
      p.matchAt? ⟨offset, prior', c :: eraseFrom lexis (step lexis mode c cs).2 cs⟩ = none) ∨
    ∃ m n, p.matchAt? ⟨offset, prior, c :: cs⟩ = some m ∧
      p.matchAt? ⟨offset, prior', c :: eraseFrom lexis (step lexis mode c cs).2 cs⟩ = some n ∧
      m.Same n ∧
      m.whole.OutsideComments lexis text := by
  by_cases hc : c = '\n'
  · subst hc
    refine .inl ⟨?_, ?_⟩ <;> rw [Option.eq_none_iff_forall_ne_some] <;> intro m hm
    · exact (hp.lt_stop hm).2.2 rfl
    · exact (hp.lt_stop hm).2.2 rfl
  · obtain ⟨stop, hagree, hstop⟩ := h.exists_agree hregion hc
    have hsize := (blanked_eraseFrom lexis mode (c :: cs)).size_eq
    rw [eraseFrom_cons, if_neg hregion, List.singleton_append] at hagree hsize
    have hstop' := hstop
    rw [← hsize] at hstop'
    cases hm : p.matchAt? ⟨offset, prior, c :: cs⟩ with
    | none =>
      refine .inl ⟨rfl, Option.eq_none_iff_forall_ne_some.2 fun n hn => ?_⟩
      obtain ⟨m, hm', -⟩ := matchAt?_agree hp.plain hagree.symm hn
        (le_of_outside hn (he n hn) hstop')
      rw [hm] at hm'
      cases hm'
    | some m =>
      have hout : m.whole.OutsideComments lexis text := by
        refine (ht m hm).resolve_right fun hin => hregion ?_
        obtain ⟨hstart, hlt, -⟩ := hp.lt_stop hm
        have hhere := hin offset hlt (by rw [hstart])
        rw [← Nat.add_zero offset, h.region c.utf8Size_pos, Option.some.injEq] at hhere
        exact hhere
      obtain ⟨n, hn, hsame⟩ := matchAt?_agree hp.plain hagree hm (le_of_outside hm hout hstop)
      exact .inr ⟨m, n, rfl, hn, hsame (le_of_outside hn (he n hn) hstop'), hout⟩

/-- In a comment the second search finds nothing. -/
theorem Abreast.findAllFrom_erased (hp : IsImportForm p)
    (h : Abreast text mode offset prior prior' resume resume' (c :: cs))
    (hregion : (step lexis mode c cs).1 = .comment) {rest : List Char}
    (he : ∀ n ∈ p.findAllFrom resume' offset prior' (blankOut c ++ rest),
      n.whole.OutsideComments lexis text) :
    p.findAllFrom resume' offset prior' (blankOut c ++ rest) =
      p.findAllFrom resume' (offset + c.utf8Size) ((blankOut c).getLast?.or prior') rest := by
  have hsize : Text.size (blankOut c) = c.utf8Size := by
    simpa using (Blanked.nil.blankOut c).size_eq
  rw [findAllFrom_append, hsize]
  intro n hn
  obtain ⟨hmatch, -, before, -, hoffset⟩ := mem_findAllFrom hn
  refine Nat.le_of_not_lt fun hlt => he n hn n.whole.start.offset (hp.lt_stop hmatch).2.1
    (Nat.le_refl _) ?_
  rw [hoffset, h.region (by omega), hregion]

/-- The matches of the first search recur in the second one, if those of the first one lie outside
comments or inside of them and those of the second one outside. -/
def RecursFrom (text : List Char) (p : Pattern) (mode : Mode) (offset : Nat)
    (prior prior' : Option Char) (resume resume' : Nat) (cs : List Char) : Prop :=
  (∀ m ∈ p.findAllFrom resume offset prior cs,
    m.whole.OutsideComments lexis text ∨ m.whole.InsideComments lexis text) →
  (∀ n ∈ p.findAllFrom resume' offset prior' (eraseFrom lexis mode cs),
    n.whole.OutsideComments lexis text) →
  Recurs text (p.findAllFrom resume offset prior cs)
    (p.findAllFrom resume' offset prior' (eraseFrom lexis mode cs))

/-- A step inside a comment: the first search may find a match, which does not leave the comment. -/
theorem Abreast.recurs_erased (hp : IsImportForm p)
    (h : Abreast text mode offset prior prior' resume resume' (c :: cs))
    (hregion : (step lexis mode c cs).1 = .comment)
      (ih : ∀ stop prior', Abreast text (step lexis mode c cs).2 (offset + c.utf8Size)
        (some c) prior' stop resume' cs →
      RecursFrom text p (step lexis mode c cs).2 (offset + c.utf8Size)
        (some c) prior' stop resume' cs) :
    RecursFrom text p mode offset prior prior' resume resume' (c :: cs) := by
  intro ht he
  rw [eraseFrom_cons, if_pos hregion] at he ⊢
  have herased := h.findAllFrom_erased hp hregion he
  rw [herased] at he ⊢
  have hhere : regionAt? lexis text offset = some .comment := by
    rw [← hregion]
    exact h.region c.utf8Size_pos
  -- the second search does not resume in the comment
  have hresume' : resume' ≤ offset := Nat.le_of_not_lt fun hlt => h.ahead offset hlt
    (Nat.le_refl _) hhere
  have hnext : ∀ stop, (∀ i < stop, offset + c.utf8Size ≤ i →
    regionAt? lexis text i = some .comment) →
      Abreast text (step lexis mode c cs).2 (offset + c.utf8Size) (some c)
        ((blankOut c).getLast?.or prior') stop
        resume' cs := by
    intro stop hstop
    exact h.next (if_pos hregion).symm (fun i hi hle => by omega) (.inr ⟨by omega, hstop⟩)
  by_cases hresume : offset < resume
  · rw [findAllFrom_skip hresume] at ht ⊢
    refine ih _ _ (hnext resume fun i hi hle => ?_) ht he
    rcases h.resume with rfl | ⟨-, hcomment⟩
    · omega
    · exact hcomment i hi (by omega)
  cases hm : p.matchAt? ⟨offset, prior, c :: cs⟩ with
  | none =>
    rw [findAllFrom_none hm] at ht ⊢
    exact ih _ _ (hnext resume fun i hi hle => by omega) ht he
  | some m =>
    rw [findAllFrom_some (Nat.not_lt.1 hresume) hm] at ht ⊢
    obtain ⟨hstart, hlt, -⟩ := hp.lt_stop hm
    have hinside : m.whole.InsideComments lexis text :=
      (ht m List.mem_cons_self).resolve_left fun hout => hout offset hlt (by rw [hstart]) hhere
    have hstop : ∀ i < m.whole.stop.offset, offset + c.utf8Size ≤ i →
        regionAt? lexis text i = some .comment := by
      intro i hi hle
      refine hinside i hi ?_
      rw [hstart]
      dsimp only
      omega
    exact .inside hinside (ih _ _ (hnext _ hstop) (fun n hn => ht n (List.mem_cons_of_mem _ hn)) he)

/-- A step outside comments: the searches find the same match, or none. -/
theorem Abreast.recurs_kept (hp : IsImportForm p)
    (h : Abreast text mode offset prior prior' resume resume' (c :: cs))
    (hregion : (step lexis mode c cs).1 ≠ .comment)
      (ih : ∀ stop stop', Abreast text (step lexis mode c cs).2 (offset + c.utf8Size) (some c)
        (some c) stop stop' cs →
      RecursFrom text p (step lexis mode c cs).2 (offset + c.utf8Size) (some c)
        (some c) stop stop' cs) :
    RecursFrom text p mode offset prior prior' resume resume' (c :: cs) := by
  intro ht he
  rw [eraseFrom_cons, if_neg hregion, List.singleton_append] at he ⊢
  have hnext : ∀ stop stop', (∀ i < stop', offset + c.utf8Size ≤ i →
    regionAt? lexis text i ≠ some .comment) →
      (stop = stop' ∨ stop ≤ offset ∧ stop' ≤ offset) →
      Abreast text (step lexis mode c cs).2 (offset + c.utf8Size) (some c)
        (some c) stop stop' cs := by
    intro stop stop' hahead hstop
    exact h.next (if_neg hregion).symm hahead
      (hstop.imp_right fun hle => ⟨by omega, fun i hi hi' => by omega⟩)
  have hresume : resume = resume' ∨ resume ≤ offset ∧ resume' ≤ offset := by
    refine h.resume.imp_right fun hcomment => ⟨Nat.le_of_not_lt fun hlt => hregion ?_, hcomment.1⟩
    have hhere := hcomment.2 offset hlt (Nat.le_refl _)
    rw [← Nat.add_zero offset, h.region c.utf8Size_pos, Option.some.injEq] at hhere
    exact hhere
  by_cases hskip : offset < resume
  · have hskip' : offset < resume' := by omega
    rw [findAllFrom_skip hskip] at ht ⊢
    rw [findAllFrom_skip hskip'] at he ⊢
    exact ih _ _ (hnext resume resume' (fun i hi hle => h.ahead i hi (by omega)) hresume) ht he
  have hle : resume ≤ offset := Nat.not_lt.1 hskip
  have hle' : resume' ≤ offset := by omega
  have htmatch : ∀ m, p.matchAt? ⟨offset, prior, c :: cs⟩ = some m →
      m.whole.OutsideComments lexis text ∨ m.whole.InsideComments lexis text := by
    intro m hm
    rw [findAllFrom_some hle hm] at ht
    exact ht m List.mem_cons_self
  have hematch : ∀ n, p.matchAt? ⟨offset, prior',
    c :: eraseFrom lexis (step lexis mode c cs).2 cs⟩ = some n →
      n.whole.OutsideComments lexis text := by
    intro n hn
    rw [findAllFrom_some hle' hn] at he
    exact he n List.mem_cons_self
  rcases h.same_match hp hregion htmatch hematch with ⟨hm, hn⟩ | ⟨m, n, hm, hn, hsame, hout⟩
  · rw [findAllFrom_none hm] at ht ⊢
    rw [findAllFrom_none hn] at he ⊢
    exact ih _ _ (hnext resume resume' (fun i hi hle => by omega) hresume) ht he
  · rw [findAllFrom_some hle hm] at ht ⊢
    rw [findAllFrom_some hle' hn] at he ⊢
    have hahead : ∀ i < n.whole.stop.offset, offset + c.utf8Size ≤ i →
        regionAt? lexis text i ≠ some .comment := by
      intro i hi hle
      refine hout i (hsame.stop_eq ▸ hi) ?_
      rw [(hp.lt_stop hm).1]
      dsimp only
      omega
    exact .same hsame (ih _ _ (hnext _ _ hahead (.inl hsame.stop_eq.symm))
      (fun m hm => ht m (List.mem_cons_of_mem _ hm)) (fun n hn => he n (List.mem_cons_of_mem _ hn)))

theorem Abreast.recurs (hp : IsImportForm p)
    (h : Abreast text mode offset prior prior' resume resume' cs) :
    RecursFrom text p mode offset prior prior' resume resume' cs := by
  induction cs generalizing mode offset prior prior' resume resume' with
  | nil => exact fun _ _ => .nil
  | cons c cs ih =>
    by_cases hregion : (step lexis mode c cs).1 = .comment
    · exact h.recurs_erased hp hregion fun _ _ hnext => ih hnext
    · exact h.recurs_kept hp hregion fun _ _ hnext => ih hnext

theorem abreast_start (text : List Char) : Abreast text .code 0 none none 0 0 text := by
  refine ⟨placed_start text, .inl rfl, fun i => ?_, ?_, .inl rfl⟩
  · rw [Nat.zero_add]
    rfl
  · intro i hi
    omega

end Search

/-! ### First words -/

/-- A match found in a text. -/
def FoundIn (p : Pattern) (text : List Char) (m : Match) : Prop :=
  p.matchAt? m.whole.start = some m ∧ m.whole.start.LiesIn text

/-- What a match contributes to the imports: the offset of its first word and its token, if that
word is shown. -/
def reported? (text : List Char) (m : Match) : Option (Nat × String) :=
  if (Text.dropBytes (keywordOffset m) (mask lexis text)).head? ==
      (Text.dropBytes (keywordOffset m) text).head? then
    some (keywordOffset m, m.string "token")
  else none

theorem imports_eq (text : List Char) :
    imports text =
      (((importForms.flatMap fun p => (p.findAll text).filterMap (reported? text)).mergeSort
      fun a b => a.1 ≤ b.1).map Prod.snd).eraseDups :=
  rfl

theorem FoundIn.exists_keyword {p : Pattern} (hp : IsImportForm p) {text : List Char} {m : Match}
    (h : FoundIn p text m) :
    ∃ before x after, text = before ++ x :: after ∧ keywordOffset m = Text.size before ∧
      Text.isBlank x = false ∧
      (m.whole.text.dropWhile Text.isBlank).head? = some x ∧
      m.whole.start.offset ≤ keywordOffset m ∧
      keywordOffset m < m.whole.stop.offset := by
  obtain ⟨hmatch, front, htext, hoffset⟩ := h
  obtain ⟨hread, -⟩ := opensAs_of_matchAt? hmatch
  have hsome : ∃ c ∈ m.whole.text, Text.isBlank c = false := by
    obtain ⟨t, ht, hm⟩ := exists_way_of_matchAt? hmatch
    obtain ⟨read, hread', c, hc, hvisible⟩ := hp.visible _ t ht
    have hsame : m.whole.text = read := by
      rw [hm]
      exact hread'.text
    exact ⟨c, hsame ▸ hc, by simpa using hvisible⟩
  cases hrest : m.whole.text.dropWhile Text.isBlank with
  | nil =>
    obtain ⟨c, hc, hvisible⟩ := hsome
    have hblank := List.dropWhile_eq_nil_iff.1 hrest c hc
    rw [hvisible] at hblank
    cases hblank
  | cons x more =>
    have hx : Text.isBlank x = false := by
      have hhead := List.head?_dropWhile_not Text.isBlank m.whole.text
      rw [hrest] at hhead
      simpa using hhead
    have hsplit : m.whole.text = m.whole.text.takeWhile Text.isBlank ++ x :: more := by
      rw [← hrest, List.takeWhile_append_dropWhile]
    have hkeyword : keywordOffset m = m.whole.start.offset +
        Text.size (m.whole.text.takeWhile Text.isBlank) := rfl
    have hstop := hread.offset
    rw [hsplit, Text.size_append, Text.size_cons] at hstop
    have hpos := x.utf8Size_pos
    refine ⟨front ++ m.whole.text.takeWhile Text.isBlank, x, more ++ m.whole.stop.rest, ?_, ?_, hx,
      rfl, ?_, ?_⟩
    · rw [htext, hread.rest, List.append_assoc]
      nth_rewrite 1 [hsplit]
      rw [List.append_assoc]
      rfl
    · rw [hkeyword, hoffset, Text.size_append]
    · omega
    · omega

theorem FoundIn.reported?_eq {p : Pattern} (hp : IsImportForm p) {text : List Char} {m : Match}
    (h : FoundIn p text m) :
    reported? text m =
      if regionAt? lexis text (keywordOffset m) = some .code then some (keywordOffset m,
        m.string "token")
      else none := by
  obtain ⟨before, x, after, rfl, hkeyword, hx, -⟩ := h.exists_keyword hp
  have hshown := shown_iff_code lexis hx before after
  rw [reported?, hkeyword, Text.dropBytes_append, List.head?_cons]
  simp only [beq_iff_eq, hshown]

/-- The same match shows the same first word in both texts. -/
theorem FoundIn.reported?_same {p : Pattern} (hp : IsImportForm p) {text other : List Char}
    {m n : Match} (hm : FoundIn p text m) (hn : FoundIn p other n)
    (hmask : mask lexis other = mask lexis text) (h : m.Same n) :
    reported? other n = reported? text m := by
  obtain ⟨before, x, after, htext, hkeyword, -, hx, -⟩ := hm.exists_keyword hp
  obtain ⟨before', x', after', hother, hkeyword', -, hx', -⟩ := hn.exists_keyword hp
  obtain rfl : x = x' := by
    rw [h.text_eq, hx] at hx'
    exact Option.some.inj hx'
  have hoffset : keywordOffset n = keywordOffset m := by
    rw [keywordOffset, keywordOffset, h.start_eq, h.text_eq]
  have htoken : n.string "token" = m.string "token" := by
    rw [Match.string, Match.string, h.group_eq]
  have hhead : (Text.dropBytes (keywordOffset m) other).head? = some x := by
    rw [← hoffset, hkeyword', hother, Text.dropBytes_append]
    rfl
  have hhead' : (Text.dropBytes (keywordOffset m) text).head? = some x := by
    rw [hkeyword, htext, Text.dropBytes_append]
    rfl
  rw [reported?, reported?, hoffset, htoken, hmask, hhead, hhead']

theorem Recurs.filterMap_reported? {p : Pattern} (hp : IsImportForm p) {text other : List Char}
    (hmask : mask lexis other = mask lexis text) {ms ns : List Match} (h : Recurs text ms ns)
    (hms : ∀ m ∈ ms, FoundIn p text m) (hns : ∀ n ∈ ns, FoundIn p other n) :
    ns.filterMap (reported? other) = ms.filterMap (reported? text) := by
  induction h with
  | nil => rfl
  | same hsame _ ih =>
    rw [List.forall_mem_cons] at hms hns
    rw [List.filterMap_cons, List.filterMap_cons, hms.1.reported?_same hp hns.1 hmask hsame,
      ih hms.2 hns.2]
  | @inside m _ _ hinside _ ih =>
    rw [List.forall_mem_cons] at hms
    obtain ⟨-, -, -, -, -, -, -, hle, hlt⟩ := hms.1.exists_keyword hp
    have hnone : reported? text m = none := by
      rw [hms.1.reported?_eq hp, hinside _ hlt hle, if_neg (by simp)]
    rw [List.filterMap_cons, hnone, ih hms.2 hns]

theorem isImportForm_of_mem {p : Pattern} (h : p ∈ importForms) : IsImportForm p := by
  have hall : (importForms.all fun p => p.isPlain && !p.nullable && !p.opensWith '\n') =
      true := by decide
  have hshape := List.all_eq_true.1 hall p h
  simp only [Bool.and_eq_true, Bool.not_eq_true'] at hshape
  refine ⟨hshape.1.1, hshape.1.2, hshape.2, ?_⟩
  have hquote : ∀ p : Pattern, (Pattern.seq p quote).Needs fun c => !Text.isBlank c := by
    intro p
    refine ((needs_char _).seq_right p).mono fun c hc => ?_
    rw [Bool.or_eq_true, beq_iff_eq, beq_iff_eq] at hc
    rcases hc with rfl | rfl <;> rfl
  have hparen : ∀ p : Pattern, (Pattern.seq p (one ')')).Needs fun c => !Text.isBlank c := by
    intro p
    refine ((needs_char _).seq_right p).mono fun c hc => ?_
    obtain rfl := beq_iff_eq.1 hc
    rfl
  simp only [importForms, List.mem_cons, List.not_mem_nil, or_false] at h
  rcases h with rfl | rfl | rfl | rfl | rfl
  · exact (hquote _).seq_right _
  · exact (hquote _).seq_right _
  · exact hparen _
  · exact hparen _
  · exact (hquote _).seq_right _

theorem mem_imports {text : List Char} {token : String} :
    token ∈ imports text ↔ ∃ p ∈ importForms, ∃ m ∈ p.findAll text,
      regionAt? lexis text (keywordOffset m) = some .code ∧ m.string "token" = token := by
  have hreported : ∀ p ∈ importForms, ∀ m ∈ p.findAll text,
      (∃ offset, reported? text m = some (offset, token)) ↔
      regionAt? lexis text (keywordOffset m) = some .code ∧ m.string "token" = token := by
    intro p hp m hm
    rw [FoundIn.reported?_eq (isImportForm_of_mem hp) (matchAt?_of_mem_findAll hm)]
    by_cases hcode : regionAt? lexis text (keywordOffset m) = some .code
    · simp [hcode]
    · simp [hcode]
  rw [imports_eq]
  simp only [List.mem_eraseDups, List.mem_map, List.mem_mergeSort, List.mem_flatMap,
    List.mem_filterMap]
  constructor
  · rintro ⟨⟨offset, _⟩, ⟨p, hp, m, hm, hsome⟩, rfl⟩
    exact ⟨p, hp, m, hm, (hreported p hp m hm).1 ⟨offset, hsome⟩⟩
  · rintro ⟨p, hp, m, hm, hkept⟩
    obtain ⟨offset, hsome⟩ := (hreported p hp m hm).2 hkept
    exact ⟨(offset, token), ⟨p, hp, m, hm, hsome⟩, rfl⟩

/-- The imports of a text are the tokens of the statements found in it whose first word is code. If
each of them lies outside comments or inside of them, and those found in the text without comments
lie outside, then the imports are those of the text without comments. -/
theorem imports_eraseComments (text : List Char) :
    let bare := eraseComments lexis text
    (∀ token, token ∈ imports text ↔ ∃ p ∈ importForms, ∃ m ∈ p.findAll text,
      regionAt? lexis text (keywordOffset m) = some .code ∧ m.string "token" = token) ∧
    ((∀ p ∈ importForms, (∀ m ∈ p.findAll text,
        m.whole.OutsideComments lexis text ∨ m.whole.InsideComments lexis text) ∧
        ∀ n ∈ p.findAll bare, n.whole.OutsideComments lexis text) →
      imports bare = imports text) := by
  intro bare
  refine ⟨fun token => mem_imports, fun happart => ?_⟩
  have hmask : mask lexis bare = mask lexis text :=
    mask_eraseComments Language.javaScript.visible_lexis text
  have hentries : ∀ p ∈ importForms,
      (p.findAll bare).filterMap (reported? bare) =
        (p.findAll text).filterMap (reported? text) := by
    intro p hp
    obtain ⟨htext, hbare⟩ := happart p hp
    have hform := isImportForm_of_mem hp
    have hrecurs := (abreast_start text).recurs hform htext hbare
    exact hrecurs.filterMap_reported? hform hmask (fun m hm => matchAt?_of_mem_findAll hm)
      fun n hn => matchAt?_of_mem_findAll hn
  rw [imports_eq, imports_eq, List.flatMap_congr hentries]

/-- Imports that are mentioned in comments, and one that is not. -/
def mentioned : List Char :=
  "/*\nimport 'z'\n*/\nimport a from 'x' // require('y')\n".toList

/-- A comment inside an import reads like the rest of it. -/
def interrupted : List Char :=
  "import a // from 'x'\n  from 'y';\n".toList

theorem comment_read_in_import :
    imports (eraseComments lexis mentioned) = imports mentioned ∧ imports mentioned = ["x"] ∧
      imports interrupted = ["x"] ∧ imports (eraseComments lexis interrupted) = ["y"] := by
  have hone : ∀ (text : List Char) (offset : Nat) (token : String),
      (importForms.flatMap fun p => (p.findAll text).filterMap (reported? text)) =
        [(offset, token)] →
      imports text = [token] := by
    intro text offset token hentries
    rw [imports_eq, hentries, List.mergeSort_singleton]
    rfl
  refine ⟨(imports_eraseComments mentioned).2 ?_, hone _ 17 "x" ?_, hone _ 0 "x" ?_,
    hone _ 0 "y" ?_⟩
  all_goals decide +kernel

end JavaScript

end CodeSurvey
