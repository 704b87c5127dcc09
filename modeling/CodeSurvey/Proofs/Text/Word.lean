import CodeSurvey.Text.Word

/-!
# Word characters

No word character is white space. Below 128 the word characters are letters, digits and the
underscore.
-/
namespace CodeSurvey.Text

/-- No range of word characters meets a range of white space. -/
theorem ranges_apart :
    (wordRanges.all fun w => blankRanges.all fun b => decide (w.2 < b.1 ∨ b.2 < w.1)) = true := by
  decide +kernel

theorem ascii_apart :
    ∀ n < 128, isAsciiWord (Char.ofNat n) = true → inRanges blankRanges n = false := by
  decide

theorem isBlank_of_isWord {c : Char} (h : isWord c = true) : isBlank c = false := by
  rw [isWord] at h
  split at h
  · rename_i hascii
    exact ascii_apart c.toNat hascii (by rwa [Char.ofNat_toNat])
  · obtain ⟨w, hw, hin⟩ := List.any_eq_true.1 h
    rw [isBlank, inRanges, List.any_eq_false]
    intro b hb hboth
    have hapart := List.all_eq_true.1 (List.all_eq_true.1 ranges_apart w hw) b hb
    simp only [Bool.and_eq_true, decide_eq_true_eq] at hin hboth hapart
    omega

theorem isWord_of_isAlpha {c : Char} (h : c.isAlpha = true) : isWord c = true := by
  have hascii : c.toNat < 128 := by
    rcases Bool.or_eq_true_iff.1 h with hupper | hlower
    · have hle := UInt32.le_iff_toNat_le.1 (of_decide_eq_true hupper).2
      exact Nat.lt_of_le_of_lt hle (by decide)
    · have hle := UInt32.le_iff_toNat_le.1 (of_decide_eq_true (Bool.and_eq_true_iff.1 hlower).2)
      exact Nat.lt_of_le_of_lt hle (by decide)
  rw [isWord, if_pos hascii]
  simp [isAsciiWord, Char.isAlphanum, h]

/-- Characters differ if one is in a class and the other is not. -/
theorem ne_of_class {accepts : Char → Bool} {c d : Char} (h : accepts c = true)
    (hd : accepts d = false) : c ≠ d := by
  rintro rfl
  rw [h] at hd
  cases hd

/-- A name that is made of word characters. Identifiers are of this kind, but for those with one of
the characters that stay in identifiers for compatibility and are no word characters: U+00B7,
U+0387, U+1369 to U+1371, U+19DA, U+2118 and U+212E, and since Unicode 15.1 also U+30FB and
U+FF65. -/
structure Word where
  chars : List Char
  ne_nil : chars ≠ []
  isWord : ∀ c ∈ chars, isWord c = true

namespace Word

def string (w : Word) : String :=
  String.ofList w.chars

theorem isBlank (w : Word) : ∀ c ∈ w.chars, Text.isBlank c = false :=
  fun c hc => isBlank_of_isWord (w.isWord c hc)

theorem ne (w : Word) {c d : Char} (hc : c ∈ w.chars) (hd : Text.isWord d = false) : c ≠ d :=
  ne_of_class (w.isWord c hc) hd

theorem head?_isBlank (w : Word) (rest : List Char) :
    (w.chars ++ rest).head?.any Text.isBlank = false := by
  cases hchars : w.chars with
  | nil => exact absurd hchars w.ne_nil
  | cons c cs => exact w.isBlank c (by simp [hchars])

end Word

end CodeSurvey.Text
