import Mathlib.Data.List.Basic

/-!
# First and last

The first and the last element of a list with a property, told by a cut of the list at that element:
none in front of the first one has the property, and none behind the last one.
-/
namespace CodeSurvey

variable {α : Type} {p : α → Prop} {f : α → Bool} {xs : List α} {a : α}

def FirstWith (p : α → Prop) (xs : List α) (a : α) : Prop :=
  ∃ before after, xs = before ++ a :: after ∧ p a ∧ ∀ b ∈ before, ¬p b

def LastWith (p : α → Prop) (xs : List α) (a : α) : Prop :=
  ∃ before after, xs = before ++ a :: after ∧ p a ∧ ∀ b ∈ after, ¬p b

theorem FirstWith.mem (h : FirstWith p xs a) : a ∈ xs := by
  obtain ⟨before, after, rfl, -, -⟩ := h
  simp

theorem FirstWith.holds (h : FirstWith p xs a) : p a := by
  obtain ⟨-, -, -, ha, -⟩ := h
  exact ha

theorem find?_eq_some_iff_firstWith (h : ∀ b, f b = true ↔ p b) :
    xs.find? f = some a ↔ FirstWith p xs a := by
  simp only [List.find?_eq_some_iff_append, FirstWith, Bool.not_eq_true', Bool.eq_false_iff, Ne, h]
  constructor
  · rintro ⟨ha, before, after, rfl, hbefore⟩
    exact ⟨before, after, rfl, ha, hbefore⟩
  · rintro ⟨before, after, rfl, ha, hbefore⟩
    exact ⟨ha, before, after, rfl, hbefore⟩

theorem find?_eq_none_iff (h : ∀ b, f b = true ↔ p b) : xs.find? f = none ↔ ∀ b ∈ xs, ¬p b := by
  simp only [List.find?_eq_none, h]

theorem firstWith_reverse : FirstWith p xs.reverse a ↔ LastWith p xs a := by
  constructor
  · rintro ⟨before, after, hxs, ha, hbefore⟩
    refine ⟨after.reverse, before.reverse, ?_, ha, ?_⟩
    · rw [← List.reverse_reverse xs, hxs]
      simp
    · simpa using hbefore
  · rintro ⟨before, after, rfl, ha, hafter⟩
    exact ⟨after.reverse, before.reverse, by simp, ha, by simpa using hafter⟩

theorem getLast?_filter_eq_some_iff (h : ∀ b, f b = true ↔ p b) :
    (xs.filter f).getLast? = some a ↔ LastWith p xs a := by
  rw [List.getLast?_filter, find?_eq_some_iff_firstWith h, firstWith_reverse]

end CodeSurvey
