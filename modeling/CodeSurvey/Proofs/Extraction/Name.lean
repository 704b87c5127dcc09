import CodeSurvey.Proofs.Extraction.Line
import CodeSurvey.Proofs.Mask.Idempotent
import CodeSurvey.Proofs.Pattern.Capture
import CodeSurvey.Proofs.Text.Word

/-!
# Names on lines

What a head or a class is called stands on its line, in the masked text and so in the text itself.
Such a name is made of word characters and, in one language, of dollar signs; it has no dot in it.
-/
namespace CodeSurvey

/-- The characters that names are made of. -/
def isNameChar (c : Char) : Bool :=
  Text.isWord c || c == '$'

theorem isBlank_of_isNameChar {c : Char} (h : isNameChar c = true) : Text.isBlank c = false := by
  rcases Bool.or_eq_true_iff.1 h with hword | hdollar
  · exact Text.isBlank_of_isWord hword
  · rw [beq_iff_eq.1 hdollar]
    rfl

theorem ne_of_isNameChar {c d : Char} (h : isNameChar c = true) (hd : isNameChar d = false) :
    c ≠ d := by
  rintro rfl
  simp [h] at hd

/-- The name stands on a line of the masked text. -/
structure SourceText.Names (s : SourceText) (line : Nat) (name : String) : Prop where
  stands : ∃ piece, s.maskedLines[line]? = some piece ∧ name.toList <:+: piece
  plain : ∀ c ∈ name.toList, isNameChar c = true

/-! ### From the masked text to the text -/

/-- What is shown and has no space in it stands in the text. -/
theorem Mask.Blanked.stands_of_shown {text shown part : List Char} (h : Mask.Blanked text shown)
    (hspace : ' ' ∉ part) (hpart : part <:+: shown) : part <:+: text := by
  obtain ⟨before, after, rfl⟩ := hpart
  cases part with
  | nil => exact List.nil_infix
  | cons c part =>
    rw [List.mem_cons, not_or] at hspace
    rw [List.append_assoc, List.cons_append] at h
    obtain ⟨textBefore, textAfter, rfl, -, hafter⟩ := h.cut_at (Ne.symm hspace.1)
    obtain ⟨rest, rfl⟩ := hafter.token_stands hspace.2 (List.prefix_append part after)
    exact ⟨textBefore, rest, by rw [List.append_assoc, List.cons_append]⟩

theorem SourceText.Names.raw {lexis : Lexis} {text : List Char} {line : Nat} {name : String}
    (h : (ofText lexis text).Names line name) :
    ∃ raw, (Text.pieces text)[line]? = some raw ∧ name.toList <:+: raw := by
  obtain ⟨piece, hpiece, hwithin⟩ := h.stands
  have hblanked : Mask.Blanked text (mask lexis text) := Mask.blanked_maskFrom lexis .code text
  obtain ⟨raw, hraw, hline⟩ := exists_left_of_forall₂ hblanked.pieces hpiece
  refine ⟨raw, hraw, hline.stands_of_shown (fun hmem => ?_) hwithin⟩
  exact ne_of_isNameChar (h.plain ' ' hmem) (by decide) rfl

theorem SourceText.Names.not_blank {s : SourceText} {line : Nat} {name : String}
    (h : s.Names line name) (hne : name.toList ≠ []) {piece : List Char}
    (hpiece : s.maskedLines[line]? = some piece) :
    Text.isBlankLine piece = false := by
  obtain ⟨other, hother, hwithin⟩ := h.stands
  obtain rfl : other = piece := Option.some.inj (hother.symm.trans hpiece)
  obtain ⟨c, hc⟩ := List.exists_mem_of_ne_nil _ hne
  rw [Text.isBlankLine, List.all_eq_false]
  exact ⟨c, hwithin.subset hc, by simp [isBlank_of_isNameChar (h.plain c hc)]⟩

/-! ### Heads on a line -/

theorem Pattern.NamesWord.names {p : Pattern} {first more : Char → Bool}
    (hp : p.NamesWord first more) (hfirst : ∀ c, first c = true → isNameChar c = true)
    (hmore : ∀ c, more c = true → isNameChar c = true) {s : SourceText} {i : Nat} {line : List Char}
    (hline : s.maskedLines[i]? = some line) {m : Pattern.Match} (h : p.matchHead? line = some m) :
      s.Names i (m.string "name") := by
  obtain ⟨hwithin, hchars⟩ := hp.name_within h
  rw [← String.toList_ofList (l := m.text "name")] at hwithin hchars
  exact ⟨⟨line, hline, hwithin⟩, fun c hc => (hchars c hc).elim (hfirst c) (hmore c)⟩

theorem Python.namesWord_defHead : defHead.NamesWord Text.isWord Text.isWord := by
  have hgroups : defHead.groupBodies = [("name", .seq (.char Text.isWord) (.run Text.isWord))] :=
    rfl
  intro body hbody
  simpa [hgroups] using hbody

theorem Python.names_of_head? {s : SourceText} {i : Nat} {line : List Char}
    (hline : s.maskedLines[i]? = some line) {head : Head} (h : head? s i line = some head) :
      s.Names i head.name := by
  rw [head?] at h
  obtain ⟨m, hm, h⟩ := Option.bind_eq_some_iff.1 h
  obtain ⟨closing, -, h⟩ := Option.bind_eq_some_iff.1 h
  have hname : head.name = m.string "name" := by
    dsimp only at h
    split at h
    · cases h
    · obtain ⟨colon, -, hhead⟩ := Option.bind_eq_some_iff.1 h
      rw [← Option.some.inj hhead]
  have hword : ∀ c, Text.isWord c = true → isNameChar c = true :=
    fun c hc => by simp [isNameChar, hc]
  rw [hname]
  exact namesWord_defHead.names hword hword hline hm

theorem Swift.namesWord_functionHead :
    functionHead.NamesWord (fun c => c.isAlpha || c == '_') Text.isWord := by
  have hgroups : functionHead.groupBodies =
      [("name", .seq (.char fun c => c.isAlpha || c == '_') (.run Text.isWord))] := rfl
  intro body hbody
  simpa [hgroups] using hbody

theorem Swift.names_of_head? {s : SourceText} {i : Nat} {line : List Char}
    (hline : s.maskedLines[i]? = some line) {head : Head} (h : head? s i line = some head) :
      s.Names i head.name := by
  rw [head?] at h
  obtain ⟨m, hm, h⟩ := Option.bind_eq_some_iff.1 h
  obtain ⟨closing, -, hhead⟩ := Option.bind_eq_some_iff.1 h
  rw [← Option.some.inj hhead]
  refine namesWord_functionHead.names (fun c hc => ?_)
    (fun c hc => by simp [isNameChar, hc]) hline hm
  rcases Bool.or_eq_true_iff.1 hc with halpha | hunderscore
  · simp [isNameChar, Text.isWord_of_isAlpha halpha]
  · rw [beq_iff_eq.1 hunderscore]
    rfl

/-! ### Heads in a text -/

namespace JavaScript

def isNameStart (c : Char) : Bool :=
  c.isAlpha || c == '_' || c == '$'

theorem isNameChar_of_isNameStart {c : Char} (h : isNameStart c = true) : isNameChar c = true := by
  rcases Bool.or_eq_true_iff.1 h with hletter | hdollar
  · rcases Bool.or_eq_true_iff.1 hletter with halpha | hunderscore
    · simp [isNameChar, Text.isWord_of_isAlpha halpha]
    · rw [beq_iff_eq.1 hunderscore]
      rfl
  · rw [beq_iff_eq.1 hdollar]
    rfl

theorem namesWord_of_mem_forms {form : Form} (h : form ∈ forms) :
    form.head.NamesWord isNameStart isNameChar := by
  have hgroups : forms.map (fun form => form.head.groupBodies) =
      List.replicate 8 [("name", .seq (.char isNameStart) (.run isNameChar))] := rfl
  intro body hbody
  have hform : form.head.groupBodies = [("name", .seq (.char isNameStart) (.run isNameChar))] :=
    List.eq_of_mem_replicate (hgroups ▸ List.mem_map_of_mem h)
  simpa [hform] using hbody

theorem namesWord_bareArrow : bareArrow.NamesWord isNameStart isNameChar := by
  have hgroups : bareArrow.groupBodies =
      [("name", .seq (.char isNameStart) (.run isNameChar)),
        ("param", .seq (.char isNameStart) (.run isNameChar))] :=
    rfl
  intro body hbody
  simpa [hgroups] using hbody

theorem namesWord_classHead : classHead.NamesWord isNameStart isNameChar := by
  have hgroups : classHead.groupBodies = [("name", .seq (.char isNameStart) (.run isNameChar))] :=
    rfl
  intro body hbody
  simpa [hgroups] using hbody

variable {text : List Char}

/-- A name that is found in the masked text stands on the line of its offset. -/
theorem names_of_mem_findAll {p : Pattern} (hp : p.NamesWord isNameStart isNameChar)
    {m : Pattern.Match} (hm : m ∈ p.findAll (SourceText.ofText lexis text).masked) {name : Capture}
    (hname : m.group? "name" = some name) :
    (SourceText.ofText lexis text).Names
      ((SourceText.ofText lexis text).index.lineOf name.offset) name.string ∧
      name.string.toList ≠ [] := by
  obtain ⟨hmatch, hlies⟩ := Pattern.matchAt?_of_mem_findAll hm
  obtain ⟨before, x, xs, after, hmasked, hoffset, htext, hx, hxs⟩ :=
    hp.exists_name hlies hmatch hname
  have hplain : ∀ c ∈ x :: xs, isNameChar c = true := by
    rintro c (_ | ⟨_, hc⟩)
    · exact isNameChar_of_isNameStart hx
    · exact hxs c hc
  have hnewline : '\n' ∉ x :: xs := fun hmem => ne_of_isNameChar (hplain _ hmem) (by decide) rfl
  have hstring : name.string.toList = x :: xs := by rw [Capture.string, String.toList_ofList, htext]
  have hline : (SourceText.ofText lexis text).index.lineOf name.offset = before.count '\n' := by
    have hindex : (SourceText.ofText lexis text).index =
        .ofText (SourceText.ofText lexis text).masked := rfl
    rw [hindex, hmasked, hoffset, Text.LineIndex.lineOf_size]
  obtain ⟨left, right, hpiece⟩ := Text.exists_piece before after hnewline
  rw [← hmasked] at hpiece
  refine ⟨⟨⟨_, by rw [hline]; exact hpiece, ?_⟩, ?_⟩, ?_⟩
  · rw [hstring]
    exact ⟨left, right, List.append_assoc _ _ _⟩
  · rw [hstring]
    exact hplain
  · rw [hstring]
    exact List.cons_ne_nil _ _

theorem names_of_mem_classes {j : Nat} {name : String}
    (h : (j, name) ∈ classes (.ofText lexis text)) :
    (SourceText.ofText lexis text).Names j name ∧ name.toList ≠ [] := by
  obtain ⟨m, hm, hclass⟩ := List.mem_filterMap.1 h
  obtain ⟨capture, hcapture, heq⟩ := Option.map_eq_some_iff.1 hclass
  obtain ⟨rfl, rfl⟩ := Prod.mk.injEq .. ▸ heq
  exact names_of_mem_findAll namesWord_classHead hm hcapture

theorem exists_name_of_candidate? {s : SourceText} {order : Nat} {form : Form} {m : Pattern.Match}
    {c : Candidate} (h : candidate? s order form m = some c) :
    ∃ name, m.group? "name" = some name ∧ c.line = s.index.lineOf name.offset ∧
    c.name = name.string := by
  rw [candidate?] at h
  obtain ⟨name, hname, h⟩ := Option.bind_eq_some_iff.1 h
  refine ⟨name, hname, ?_⟩
  dsimp only at h
  split at h
  · cases h
  · obtain ⟨closing, -, h⟩ := Option.bind_eq_some_iff.1 h
    split at h
    · cases h
    · obtain rfl := Option.some.inj h
      exact ⟨rfl, rfl⟩

theorem exists_name_of_bareCandidate {s : SourceText} {m : Pattern.Match} {c : Candidate}
    (h : bareCandidate s m = some c) :
    ∃ name, m.group? "name" = some name ∧ c.line = s.index.lineOf name.offset ∧
    c.name = name.string := by
  rw [bareCandidate] at h
  obtain ⟨name, hname, h⟩ := Option.bind_eq_some_iff.1 h
  obtain rfl := Option.some.inj h
  exact ⟨name, hname, rfl, rfl⟩

theorem named_of_mem_candidates {c : Candidate} (h : c ∈ candidates (.ofText lexis text)) :
    (SourceText.ofText lexis text).Names c.line c.name ∧ c.name.toList ≠ [] := by
  rw [candidates, List.mem_mergeSort] at h
  rcases List.mem_append.1 (List.mem_filter.1 h).1 with h | h
  · obtain ⟨⟨form, order⟩, hform, h⟩ := List.mem_flatMap.1 h
    obtain ⟨m, hm, hc⟩ := List.mem_filterMap.1 h
    obtain ⟨name, hname, hline, hstring⟩ := exists_name_of_candidate? hc
    have hmem := List.mem_of_getElem? (List.mk_mem_zipIdx_iff_getElem?.1 hform)
    rw [hline, hstring]
    exact names_of_mem_findAll (namesWord_of_mem_forms hmem) hm hname
  · obtain ⟨m, hm, hc⟩ := List.mem_filterMap.1 h
    obtain ⟨name, hname, hline, hstring⟩ := exists_name_of_bareCandidate hc
    rw [hline, hstring]
    exact names_of_mem_findAll namesWord_bareArrow hm hname

end JavaScript

end CodeSurvey
