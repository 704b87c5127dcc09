import CodeSurvey.Json.Printer
import CodeSurvey.Json.Reader
import Mathlib.Tactic.SplitIfs

/-!
# Texts and numbers read back

A quoted text is read back as the text, and the digits of a natural number as the number, wherever
they stand in a document.
-/
namespace CodeSurvey.Json

/-! ### Texts -/

private theorem hexDigit?_hexLetter : ∀ n < 16, hexDigit? (hexLetter n) = some n := by
  decide

theorem hexUnit?_hexLetter {n : Nat} (h : n < 32) :
    hexUnit? '0' '0' (hexLetter (n / 16)) (hexLetter (n % 16)) = some n := by
  have hzero : hexDigit? '0' = some 0 := by decide
  rw [hexUnit?, hexDigit?_hexLetter (n / 16) (by omega), hexDigit?_hexLetter (n % 16) (by omega),
    hzero]
  change some (((0 * 16 + 0) * 16 + n / 16) * 16 + n % 16) = some n
  congr 1
  omega

/-- A reading without a surrogate that waits for its partner. -/
def Reading.ofChars (chars : List Char) : Reading :=
  ⟨chars, none, true⟩

private theorem pushUnit_ofChars {chars : List Char} {n : Nat} (h : n < 32) :
    (Reading.ofChars chars).pushUnit n = .ofChars (Char.ofNat n :: chars) := by
  have hhigh : isHighSurrogate n = false := by simp [isHighSurrogate]; omega
  have hlow : isLowSurrogate n = false := by simp [isLowSurrogate]; omega
  simp [Reading.ofChars, Reading.pushUnit, Reading.push, hhigh, hlow]

theorem readTextFrom?_escape (chars : List Char) (c : Char) (rest : List Char) :
    readTextFrom? (.ofChars chars) (escape c ++ rest) =
      readTextFrom? (.ofChars (c :: chars)) rest := by
  simp only [escape, beq_iff_eq]
  split_ifs with h₁ h₂ h₃ h₄ h₅ h₆ h₇ h₈
  · subst h₁; rfl
  · subst h₂; rfl
  · subst h₃; rfl
  · subst h₄; rfl
  · subst h₅; rfl
  · subst h₆; rfl
  · subst h₇; rfl
  · have hn : c.toNat < 32 := h₈
    simp only [List.cons_append, List.nil_append]
    rw [readTextFrom?, hexUnit?_hexLetter hn]
    simp only [pushUnit_ofChars hn, Char.ofNat_toNat]
  · rw [List.cons_append, List.nil_append, readTextFrom?]
    · rw [if_neg h₈]
      rfl
    · exact h₁
    · intro a b d e tail hc
      exact absurd hc h₂
    · intro d tail hc
      exact absurd hc h₂

theorem readTextFrom?_escaped (chars cs rest : List Char) :
    readTextFrom? (.ofChars chars) (cs.flatMap escape ++ '"' :: rest) =
      some (some (String.ofList (chars.reverse ++ cs)), rest) := by
  induction cs generalizing chars with
  | nil => simp [readTextFrom?, Reading.ofChars, Reading.finish]
  | cons c cs ih =>
    rw [List.flatMap_cons, List.append_assoc, readTextFrom?_escape, ih]
    simp

theorem readText?_escaped (s : String) (rest : List Char) :
    readText? (s.toList.flatMap escape ++ '"' :: rest) = some (some s, rest) := by
  have h := readTextFrom?_escaped [] s.toList rest
  rw [List.reverse_nil, List.nil_append, String.ofList_toList] at h
  exact h

theorem toList_quoted (s : String) :
    (quoted s).toList = '"' :: s.toList.flatMap escape ++ ['"'] := by
  simp [quoted]

/-! ### Natural numbers -/

/-- What may follow a number: nothing that would go on with it. -/
def Delimited (rest : List Char) : Prop :=
  ∀ c ∈ rest.head?, c.isDigit = false ∧ c ≠ '.' ∧ c ≠ 'e' ∧ c ≠ 'E'

theorem delimited_nil : Delimited [] := by
  simp [Delimited]

theorem delimited_cons {c : Char} {rest : List Char}
    (h : c.isDigit = false ∧ c ≠ '.' ∧ c ≠ 'e' ∧ c ≠ 'E') : Delimited (c :: rest) := by
  simpa [Delimited] using h

theorem digitsOf_append {ds rest : List Char} (hds : ∀ c ∈ ds, c.isDigit = true)
    (hrest : Delimited rest) :
    digitsOf (ds ++ rest) = (ds.map fun c => c.toNat - '0'.toNat, rest) := by
  have hstop : rest.takeWhile Char.isDigit = [] ∧ rest.dropWhile Char.isDigit = rest := by
    cases rest with
    | nil => simp
    | cons c rest => simp [(hrest c (by simp)).1]
  rw [digitsOf, List.takeWhile_append_of_pos hds, List.dropWhile_append_of_pos hds, hstop.1,
    hstop.2, List.append_nil]

private theorem readFraction?_delimited {rest : List Char} (h : Delimited rest) :
    readFraction? rest = some ([], rest) := by
  unfold readFraction?
  split
  · rename_i tail
    exact absurd rfl (h '.' (by simp)).2.1
  · rfl

private theorem readExponent?_delimited {rest : List Char} (h : Delimited rest) :
    readExponent? rest = some (none, rest) := by
  cases rest with
  | nil => rfl
  | cons c rest =>
    obtain ⟨-, -, he, hE⟩ := h c (by simp)
    simp [readExponent?, he, hE]

theorem naturalOf_toDigits (n : Nat) :
    Literal.naturalOf ((Nat.toDigits 10 n).map fun c => c.toNat - '0'.toNat) = n := by
  have h := Nat.ofDigitChars_ten_toDigits (n := n)
  rw [Nat.ofDigitChars] at h
  rw [Literal.naturalOf, List.foldl_map]
  simpa only [Nat.mul_comm] using h

/-- Only zero is written with a zero in front. -/
theorem head?_toDigits {n : Nat} (h : 0 < n) :
    ∃ d ds, Nat.toDigits 10 n = d :: ds ∧ d.toNat - '0'.toNat ≠ 0 := by
  induction n using Nat.strongRecOn with
  | _ n ih =>
    by_cases hn : n < 10
    · refine ⟨n.digitChar, [], Nat.toDigits_of_lt_base hn, ?_⟩
      have hval := Nat.toNat_digitChar_sub_48_of_lt_ten hn
      simp at hval ⊢
      omega
    · obtain ⟨d, ds, hd, hne⟩ := ih (n / 10) (by omega) (by omega)
      rw [Nat.toDigits_of_base_le (by decide) (by omega), hd]
      exact ⟨d, ds ++ [(n % 10).digitChar], rfl, hne⟩

private theorem value_toDigits {n : Nat} (hn : n < UInt64.size) :
    Literal.value ⟨false, (Nat.toDigits 10 n).map fun c => c.toNat - '0'.toNat, [], none⟩ =
      .ofNat n := by
  have hfits : n ≤ Literal.maxSignificand := Nat.le_sub_one_of_lt hn
  simp only [Literal.value, naturalOf_toDigits]
  simp [hfits, ofNat]

private theorem not_leadingZero (n : Nat) :
    (((Nat.toDigits 10 n).map fun c => c.toNat - '0'.toNat).isEmpty ||
      (((Nat.toDigits 10 n).map fun c => c.toNat - '0'.toNat).head? == some 0 &&
        1 < ((Nat.toDigits 10 n).map fun c => c.toNat - '0'.toNat).length)) = false := by
  cases n with
  | zero => rfl
  | succ n =>
    obtain ⟨d, ds, hd, hne⟩ := head?_toDigits (Nat.succ_pos n)
    simp only [Char.reduceToNat] at hne
    simp [hd, hne]

theorem readNumber?_toDigits {n : Nat} (hn : n < UInt64.size) {rest : List Char}
    (hrest : Delimited rest) :
    readNumber? (Nat.toDigits 10 n ++ rest) = some (.ofNat n, rest) := by
  have hall : ∀ c ∈ Nat.toDigits 10 n, c.isDigit = true :=
    fun c hc => Nat.isDigit_of_mem_toDigits (by decide) (by decide) hc
  have hsign : ∀ tail, Nat.toDigits 10 n ++ rest ≠ '-' :: tail := by
    intro tail h
    obtain ⟨d, ds, hd⟩ := List.exists_cons_of_ne_nil (Nat.toDigits_ne_nil (n := n) (b := 10))
    rw [hd, List.cons_append, List.cons.injEq] at h
    have hdigit := hall d (by simp [hd])
    rw [h.1] at hdigit
    exact absurd hdigit (by decide)
  rw [readNumber?]
  · simp only [digitsOf_append hall hrest, not_leadingZero, readFraction?_delimited hrest,
      readExponent?_delimited hrest, value_toDigits hn, Option.bind_eq_bind, Option.bind_some,
      Option.pure_def, Bool.false_eq_true, if_false]
  · exact hsign

end CodeSurvey.Json
