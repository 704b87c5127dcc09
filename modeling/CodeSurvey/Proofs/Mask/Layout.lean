import CodeSurvey.Language
import CodeSurvey.Proofs.Text.Offset
import Mathlib.Data.List.Forall2

/-!
# The layout of masked text

A masked text is the text with some characters blanked: a space stands for each of their bytes, and
line feeds stay. So both texts have the same bytes but for those spaces, every offset of a character
keeps its meaning, and line by line they are equally long.
-/
namespace CodeSurvey

namespace Mask

/-- The second text is the first one with some characters blanked, but no line feed. -/
inductive Blanked : List Char → List Char → Prop
  | nil : Blanked [] []
  | keep (c : Char) {cs shown : List Char} (h : Blanked cs shown) : Blanked (c :: cs) (c :: shown)
  | blank {c : Char} (hc : c ≠ '\n') {cs shown : List Char} (h : Blanked cs shown) :
      Blanked (c :: cs) (List.replicate c.utf8Size ' ' ++ shown)

theorem Blanked.blankOut {cs shown : List Char} (h : Blanked cs shown) (c : Char) :
    Blanked (c :: cs) (Mask.blankOut c ++ shown) := by
  rw [Mask.blankOut]
  split
  · exact .keep c h
  · rename_i hc
    exact .blank (by simpa using hc) h

/-- The masked form of a text that is walked from `mode` on. -/
def maskFrom (lexis : Lexis) (mode : Mode) (cs : List Char) : List Char :=
  (regions lexis mode cs).flatMap fun p => if p.2 = .code then [p.1] else blankOut p.1

theorem blanked_maskFrom (lexis : Lexis) (mode : Mode) (cs : List Char) :
    Blanked cs (maskFrom lexis mode cs) := by
  induction cs generalizing mode with
  | nil => exact .nil
  | cons c cs ih =>
    rw [maskFrom, regions, List.flatMap_cons]
    split
    · exact .keep c (ih _)
    · exact (ih _).blankOut c

namespace Blanked

variable {text shown : List Char}

theorem size_eq (h : Blanked text shown) : Text.size shown = Text.size text := by
  induction h with
  | nil => rfl
  | keep c _ ih => rw [Text.size_cons, Text.size_cons, ih]
  | @blank c _ _ _ _ ih =>
    have hspaces : ∀ n, Text.size (List.replicate n ' ') = n := by
      intro n
      rw [← Text.Utf8.length_encode, Text.Utf8.encode_spaces, List.length_replicate]
    rw [Text.size_append, hspaces, Text.size_cons, ih]

/-- Byte by byte, nothing but spaces is put in, and no line feed is taken out. -/
theorem bytes (h : Blanked text shown) :
    List.Forall₂ (fun b m => m = b ∨ m = 0x20 ∧ b ≠ 0x0A) (Text.Utf8.encode text)
      (Text.Utf8.encode shown) := by
  induction h with
  | nil => simp
  | keep c _ ih =>
    rw [Text.Utf8.encode_cons, Text.Utf8.encode_cons]
    exact List.rel_append (List.forall₂_same.2 fun b _ => .inl rfl) ih
  | @blank c hc _ _ _ ih =>
    rw [Text.Utf8.encode_cons, Text.Utf8.encode_append, Text.Utf8.encode_spaces]
    refine List.rel_append ?_ ih
    have hfree := Text.Utf8.newline_not_mem hc
    rw [← String.length_utf8EncodeChar c]
    generalize String.utf8EncodeChar c = bs at hfree
    induction bs with
    | nil => simp
    | cons b bs ihb =>
      rw [List.mem_cons, not_or] at hfree
      exact .cons (.inr ⟨rfl, Ne.symm hfree.1⟩) (ihb hfree.2)

/-- A cut of the text is a cut of what is shown. -/
theorem cut {before after : List Char} (h : Blanked (before ++ after) shown) :
    ∃ shownBefore shownAfter, shown = shownBefore ++ shownAfter ∧ Blanked before shownBefore ∧
      Blanked after shownAfter := by
  induction before generalizing shown with
  | nil => exact ⟨[], shown, rfl, .nil, h⟩
  | cons c before ih =>
    cases h with
    | keep _ h =>
      obtain ⟨shownBefore, shownAfter, rfl, hbefore, hafter⟩ := ih h
      exact ⟨c :: shownBefore, shownAfter, rfl, .keep c hbefore, hafter⟩
    | blank hc h =>
      obtain ⟨shownBefore, shownAfter, rfl, hbefore, hafter⟩ := ih h
      exact ⟨_, shownAfter, (List.append_assoc _ _ _).symm, .blank hc hbefore, hafter⟩

/-- What is shown and is no space stands in the text, at the same offset. -/
theorem cut_at {before after : List Char} {c : Char} (h : Blanked text (before ++ c :: after))
    (hc : c ≠ ' ') :
    ∃ textBefore textAfter, text = textBefore ++ c :: textAfter ∧ Blanked textBefore before ∧
      Blanked textAfter after := by
  generalize hshown : before ++ c :: after = shown at h
  induction h generalizing before with
  | nil => simp at hshown
  | @keep d cs shown h ih =>
    cases before with
    | nil =>
      obtain ⟨rfl, rfl⟩ := List.cons.inj hshown
      exact ⟨[], cs, rfl, .nil, h⟩
    | cons e before =>
      obtain ⟨rfl, hrest⟩ := List.cons.inj hshown
      obtain ⟨textBefore, textAfter, rfl, hbefore, hafter⟩ := ih hrest
      exact ⟨e :: textBefore, textAfter, rfl, .keep e hbefore, hafter⟩
  | @blank d hd cs shown h ih =>
    -- the character is not among the spaces, so these all stand in front of it
    have hpast : ∃ past, before = List.replicate d.utf8Size ' ' ++ past ∧
        past ++ c :: after = shown := by
      rcases List.append_eq_append_iff.1 hshown with ⟨past, hspaces, hrest⟩ | ⟨past, hbefore, hrest⟩
      · cases past with
        | nil => exact ⟨[], by simpa using hspaces.symm, by simpa using hrest⟩
        | cons e past =>
          obtain ⟨rfl, -⟩ := List.cons.inj hrest
          have hmem : c ∈ List.replicate d.utf8Size ' ' := hspaces ▸ by simp
          exact absurd (List.eq_of_mem_replicate hmem) hc
      · exact ⟨past, hbefore, hrest.symm⟩
    obtain ⟨past, rfl, hrest⟩ := hpast
    obtain ⟨textBefore, textAfter, rfl, hbefore, hafter⟩ := ih hrest
    exact ⟨d :: textBefore, textAfter, rfl, .blank hd hbefore, hafter⟩

/-- Line by line, what is shown is the text with some characters blanked. -/
theorem pieces (h : Blanked text shown) :
    List.Forall₂ Blanked (Text.pieces text) (Text.pieces shown) := by
  have hhead : ∀ {f g : List Char → List Char} {ls ms : List (List Char)},
      (∀ l m, Blanked l m → Blanked (f l) (g m)) → List.Forall₂ Blanked ls ms →
        List.Forall₂ Blanked (ls.modifyHead f) (ms.modifyHead g) := by
    intro f g ls ms hfg hls
    cases hls with
    | nil => exact .nil
    | cons hl hls => exact .cons (hfg _ _ hl) hls
  induction h with
  | nil => exact .cons .nil .nil
  | @keep c cs shown _ ih =>
    by_cases hc : c = '\n'
    · subst hc
      rw [Text.pieces_newline, Text.pieces_newline]
      exact .cons .nil ih
    · rw [Text.pieces_cons hc, Text.pieces_cons hc]
      exact hhead (fun l m h => .keep c h) ih
  | @blank c hc cs shown _ ih =>
    rw [Text.pieces_cons hc, Text.pieces_append_of_not_mem (by simp)]
    exact hhead (fun l m h => .blank hc h) ih

theorem getElem?_bytes (h : Blanked text shown) (i : Nat) :
    (Text.Utf8.encode shown)[i]? = (Text.Utf8.encode text)[i]? ∨
      (Text.Utf8.encode shown)[i]? = some 0x20 ∧ ∃ b, (Text.Utf8.encode text)[i]? = some b ∧
      b ≠ 0x0A := by
  have hbytes := h.bytes
  generalize Text.Utf8.encode text = bs at hbytes
  generalize Text.Utf8.encode shown = ms at hbytes
  induction hbytes generalizing i with
  | nil => exact .inl rfl
  | cons hb _ ih =>
    cases i with
    | zero =>
      rcases hb with rfl | ⟨rfl, hb⟩
      · exact .inl rfl
      · exact .inr ⟨rfl, _, rfl, hb⟩
    | succ i => exact ih i

/-- Where a character of the text starts or ends, so does one of what is shown. -/
theorem isSome_dropBytes? (h : Blanked text shown) {offset : Nat}
    (hoffset : (Text.dropBytes? offset text).isSome) :
    (Text.dropBytes? offset shown).isSome := by
  obtain ⟨after, hafter⟩ := Option.isSome_iff_exists.1 hoffset
  obtain ⟨before, rfl, rfl⟩ := Text.dropBytes?_eq_some_iff.1 hafter
  obtain ⟨shownBefore, shownAfter, rfl, hbefore, -⟩ := h.cut
  rw [← hbefore.size_eq, Text.dropBytes?_append]
  rfl

theorem dropBytes?_of_shown (h : Blanked text shown) {offset : Nat} {c : Char} {rest : List Char}
    (hshown : Text.dropBytes? offset shown = some (c :: rest)) (hc : c ≠ ' ') :
    ∃ original, Text.dropBytes? offset text = some (c :: original) := by
  obtain ⟨before, rfl, rfl⟩ := Text.dropBytes?_eq_some_iff.1 hshown
  obtain ⟨textBefore, textAfter, rfl, hbefore, -⟩ := h.cut_at hc
  exact ⟨textAfter, hbefore.size_eq ▸ Text.dropBytes?_append _ _⟩

theorem map_size_pieces (h : Blanked text shown) :
    (Text.pieces shown).map Text.size = (Text.pieces text).map Text.size := by
  have hpieces := h.pieces
  generalize Text.pieces text = ls at hpieces
  generalize Text.pieces shown = ms at hpieces
  induction hpieces with
  | nil => rfl
  | cons hl _ ih => rw [List.map_cons, List.map_cons, hl.size_eq, ih]

end Blanked

end Mask

/-- Masking writes spaces over bytes of a text and nothing else: it takes away no line feed and adds
none, every place between two characters stays one, what is shown at a place stands there in the
text unless it is a space, and the lines keep their number and their lengths. -/
theorem mask_keeps_layout (language : Language) (text : List Char) :
    let masked := mask language.lexis text
    let bytes := Text.Utf8.encode text
    let shown := Text.Utf8.encode masked
    shown.length = bytes.length ∧
      (∀ i : Nat, i < bytes.length → shown[i]? = bytes[i]? ∨ shown[i]? = some 0x20) ∧
      (∀ i : Nat, shown[i]? = some 0x0A ↔ bytes[i]? = some 0x0A) ∧
      (∀ offset, (Text.dropBytes? offset text).isSome → (Text.dropBytes? offset masked).isSome) ∧
      (∀ offset c rest, Text.dropBytes? offset masked = some (c :: rest) → c ≠ ' ' →
        ∃ original, Text.dropBytes? offset text = some (c :: original)) ∧
      (Text.pieces masked).map Text.size = (Text.pieces text).map Text.size := by
  intro masked bytes shown
  have hblanked : Mask.Blanked text masked := Mask.blanked_maskFrom language.lexis .code text
  refine ⟨hblanked.bytes.length_eq.symm, ?_, ?_, fun _ => hblanked.isSome_dropBytes?,
    fun _ _ _ => hblanked.dropBytes?_of_shown, hblanked.map_size_pieces⟩
  · intro i _
    exact (hblanked.getElem?_bytes i).imp_right And.left
  · intro i
    rcases hblanked.getElem?_bytes i with hsame | ⟨hspace, b, hb, hne⟩
    · rw [← hsame]
    · have hshown : shown[i]? ≠ some 0x0A := by
        rw [hspace]
        decide
      have hbyte : bytes[i]? ≠ some 0x0A := by
        rw [hb]
        exact fun h => hne (Option.some.inj h)
      exact iff_of_false hshown hbyte

end CodeSurvey
