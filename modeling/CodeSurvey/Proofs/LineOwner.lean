import CodeSurvey.CallGraph
import CodeSurvey.Proofs.Search

/-!
# The owner of a line

The lines of the functions are painted one function after the other, so a line belongs to the last
function in the order of painting that reaches it. That order is stable: of all functions that reach
the line the last one is the one that starts last, among those the one that ends first, and among
those the last in the list. Nothing is asked of how the spans lie to each other.
-/
namespace CodeSurvey.CallGraph

/-! ### The last one after sorting -/

section Sorting

variable {α : Type} {le : α → α → Bool} {p : α → Bool} {xs : List α} {a : α}

/-- Whether `a` is one of the elements with `p` and none of them has to stand behind it. -/
def isGreatest (le : α → α → Bool) (p : α → Bool) (xs : List α) (a : α) : Bool :=
  p a && xs.all fun b => !p b || le b a

theorem isGreatest_iff :
    isGreatest le p xs a = true ↔ p a = true ∧ ∀ b ∈ xs, p b = true → le b a = true := by
  simp only [isGreatest, Bool.and_eq_true, List.all_eq_true, Bool.or_eq_true, Bool.not_eq_true',
    ← Bool.not_eq_true, or_iff_not_imp_left, not_not]

variable (htrans : ∀ a b c, le a b = true → le b c = true → le a c = true)
  (htotal : ∀ a b, (le a b || le b a) = true)

include htotal in
theorem getLast?_filter_isGreatest (hsorted : xs.Pairwise fun a b => le a b = true) :
    (xs.filter p).getLast? = (xs.filter (isGreatest le p xs)).getLast? := by
  cases hlast : (xs.filter p).getLast? with
  | none =>
    rw [List.getLast?_eq_none_iff, List.filter_eq_nil_iff] at hlast
    rw [eq_comm, List.getLast?_eq_none_iff, List.filter_eq_nil_iff]
    exact fun a ha hgreatest => hlast a ha (isGreatest_iff.1 hgreatest).1
  | some a =>
    obtain ⟨before, after, rfl, hpa, hafter⟩ :=
      (getLast?_filter_eq_some_iff fun b => Iff.rfl).1 hlast
    rw [eq_comm, getLast?_filter_eq_some_iff fun b => isGreatest_iff]
    refine ⟨before, after, rfl, ⟨hpa, ?_⟩, fun b hb hgreatest => hafter b hb hgreatest.1⟩
    intro b hb hpb
    rcases List.mem_append.1 hb with hb | hb
    · exact (List.pairwise_append.1 hsorted).2.2 b hb a List.mem_cons_self
    · rcases List.mem_cons.1 hb with rfl | hb
      · simpa using htotal b b
      · exact absurd hpb (hafter b hb)

include htrans htotal

/-- Sorting leaves elements in their order that may stand in either order. -/
theorem filter_mergeSort (h : ∀ a ∈ xs, ∀ b ∈ xs, p a = true → p b = true → le a b = true) :
    (xs.mergeSort le).filter p = xs.filter p := by
  have hpairwise : (xs.filter p).Pairwise fun a b => le a b = true := by
    refine List.pairwise_of_forall_mem_list ?_
    intro a ha b hb
    rw [List.mem_filter] at ha hb
    exact h a ha.1 b hb.1 ha.2 hb.2
  have hsublist : (xs.filter p).Sublist ((xs.mergeSort le).filter p) := by
    have hkept := (List.sublist_mergeSort htrans htotal hpairwise List.filter_sublist).filter p
    simpa only [List.filter_filter, Bool.and_self] using hkept
  have hlength := ((List.mergeSort_perm xs le).filter p).length_eq
  exact (hsublist.eq_of_length hlength.symm).symm

/-- Of the elements with `p`, sorting puts that one last which is the last of the greatest ones in
the list as it was. -/
theorem getLast?_filter_mergeSort (p : α → Bool) (xs : List α) :
    ((xs.mergeSort le).filter p).getLast? = (xs.filter (isGreatest le p xs)).getLast? := by
  have hsame : isGreatest le p (xs.mergeSort le) = isGreatest le p xs := by
    funext a
    rw [Bool.eq_iff_iff, isGreatest_iff, isGreatest_iff]
    simp only [List.mem_mergeSort]
  rw [getLast?_filter_isGreatest htotal (List.pairwise_mergeSort htrans htotal xs), hsame,
    filter_mergeSort htrans htotal]
  intro a ha b hb hgreatest hgreatest'
  exact (isGreatest_iff.1 hgreatest').2 a ha (isGreatest_iff.1 hgreatest).1

end Sorting

/-! ### The last painter -/

/-- Whether the extent has line `i`. -/
def Extent.reaches (i : Nat) (x : Extent) : Bool :=
  x.span.first ≤ i && i ≤ x.span.last

theorem Extent.reaches_iff {i : Nat} {x : Extent} :
    x.reaches i = true ↔ x.span.first ≤ i ∧ i ≤ x.span.last := by
  simp [reaches]

@[simp] theorem length_paint (owners : List (Option Definition)) (x : Extent) :
    (paint owners x).length = owners.length := by
  simp [paint]

theorem length_foldl_paint (xs : List Extent) (owners : List (Option Definition)) :
    (xs.foldl paint owners).length = owners.length := by
  induction xs generalizing owners with
  | nil => rfl
  | cons x xs ih => rw [List.foldl_cons, ih, length_paint]

theorem getElem?_paint (owners : List (Option Definition)) (x : Extent) (i : Nat) :
    (paint owners x)[i]? = owners[i]?.map fun owner =>
      if x.reaches i then some x.definition else owner := by
  rw [paint, List.getElem?_map, List.getElem?_zipIdx, Option.map_map, Nat.zero_add]
  rfl

theorem getElem?_foldl_paint (xs : List Extent) (owners : List (Option Definition)) (i : Nat) :
    (xs.foldl paint owners)[i]? =
      owners[i]?.map ((xs.filter (·.reaches i)).getLast?.map Extent.definition).or := by
  induction xs generalizing owners with
  | nil => exact Option.map_id'.symm
  | cons x xs ih =>
    rw [List.foldl_cons, ih, getElem?_paint, Option.map_map, List.filter_cons]
    congr 1
    funext owner
    by_cases hx : x.reaches i = true
    · rw [if_pos hx, List.getLast?_cons, Function.comp, if_pos hx]
      cases (xs.filter (·.reaches i)).getLast? <;> rfl
    · rw [if_neg hx, Function.comp, if_neg hx]

/-! ### Innermost spans -/

theorem outerFirst_iff {x y : Extent} : outerFirst x y = true ↔
    x.span.first < y.span.first ∨ x.span.first = y.span.first ∧ y.span.last ≤ x.span.last := by
  simp [outerFirst]

theorem outerFirst_trans (x y z : Extent) (hxy : outerFirst x y = true)
    (hyz : outerFirst y z = true) :
    outerFirst x z = true := by
  rw [outerFirst_iff] at *
  omega

theorem outerFirst_total (x y : Extent) : (outerFirst x y || outerFirst y x) = true := by
  rw [Bool.or_eq_true, outerFirst_iff, outerFirst_iff]
  omega

variable {spanOf : Nat → Option LineSpan} {lineCount i : Nat} {ds : List Definition}
  {d e : Definition}

/-- The lines of a definition, which has its own line alone if no span is found. -/
def spanAt (spanOf : Nat → Option LineSpan) (d : Definition) : LineSpan :=
  (spanOf (d.line - 1)).getD ⟨d.line - 1, d.line - 1⟩

/-- The definition stands on one of the lines and its span has line `i`. -/
structure Covers (spanOf : Nat → Option LineSpan) (lineCount i : Nat) (d : Definition) : Prop where
  line_pos : 1 ≤ d.line
  line_le : d.line ≤ lineCount
  first_le : (spanAt spanOf d).first ≤ i
  le_last : i ≤ (spanAt spanOf d).last

/-- Of the definitions that cover line `i` none starts later, and of those that start on the same
line none ends earlier. -/
structure IsInnermost (spanOf : Nat → Option LineSpan) (lineCount : Nat) (ds : List Definition)
    (i : Nat) (d : Definition) : Prop where
  covers : Covers spanOf lineCount i d
  first_le : ∀ e ∈ ds, Covers spanOf lineCount i e →
    (spanAt spanOf e).first ≤ (spanAt spanOf d).first
  last_le : ∀ e ∈ ds, Covers spanOf lineCount i e →
    (spanAt spanOf e).first = (spanAt spanOf d).first →
    (spanAt spanOf d).last ≤ (spanAt spanOf e).last

instance : Decidable (Covers spanOf lineCount i d) :=
  decidable_of_iff (1 ≤ d.line ∧ d.line ≤ lineCount ∧ (spanAt spanOf d).first ≤ i ∧
    i ≤ (spanAt spanOf d).last)
    ⟨fun h => ⟨h.1, h.2.1, h.2.2.1, h.2.2.2⟩,
      fun h => ⟨h.line_pos, h.line_le, h.first_le, h.le_last⟩⟩

instance : Decidable (IsInnermost spanOf lineCount ds i d) :=
  decidable_of_iff (Covers spanOf lineCount i d ∧
      (∀ e ∈ ds, Covers spanOf lineCount i e → (spanAt spanOf e).first ≤ (spanAt spanOf d).first) ∧
      ∀ e ∈ ds, Covers spanOf lineCount i e → (spanAt spanOf e).first = (spanAt spanOf d).first →
        (spanAt spanOf d).last ≤ (spanAt spanOf e).last)
    ⟨fun h => ⟨h.1, h.2.1, h.2.2⟩, fun h => ⟨h.covers, h.first_le, h.last_le⟩⟩

/-- The extent of a definition, as far as there are lines. -/
def extentOf (spanOf : Nat → Option LineSpan) (lineCount : Nat) (d : Definition) : Extent :=
  ⟨d, ⟨(spanAt spanOf d).first, min (spanAt spanOf d).last (lineCount - 1)⟩⟩

theorem extents_eq (spanOf : Nat → Option LineSpan) (lineCount : Nat) (ds : List Definition) :
    extents spanOf lineCount ds =
      (ds.filter fun d => 1 ≤ d.line && d.line ≤ lineCount).map (extentOf spanOf lineCount) :=
  rfl

/-- The last of the painters that reach a line owns it. -/
theorem getElem?_lineOwners (spanOf : Nat → Option LineSpan) (ds : List Definition)
    (h : i < lineCount) :
    (lineOwners spanOf lineCount ds)[i]? =
      some ((((extents spanOf lineCount ds).mergeSort outerFirst).filter
      (·.reaches i)).getLast?.map Extent.definition) := by
  rw [lineOwners, getElem?_foldl_paint, List.getElem?_replicate_of_lt h]
  exact congrArg some Option.or_none

theorem covers_iff (h : i < lineCount) : Covers spanOf lineCount i d ↔
    (1 ≤ d.line && d.line ≤ lineCount) = true ∧ (extentOf spanOf lineCount d).reaches i = true := by
  rw [Extent.reaches_iff, Bool.and_eq_true, decide_eq_true_eq, decide_eq_true_eq]
  simp only [extentOf]
  constructor
  · rintro ⟨hpos, hle, hfirst, hlast⟩
    exact ⟨⟨hpos, hle⟩, hfirst, by omega⟩
  · rintro ⟨⟨hpos, hle⟩, hfirst, hlast⟩
    exact ⟨hpos, hle, hfirst, by omega⟩

/-- Where spans start on the lines of their definitions, two that start together are one. -/
theorem spanAt_eq_of_first_eq (hspan : ∀ start span, spanOf start = some span → span.first = start)
    (h : (spanAt spanOf e).first = (spanAt spanOf d).first) :
      spanAt spanOf e = spanAt spanOf d := by
  have hfirst : ∀ d : Definition, (spanAt spanOf d).first = d.line - 1 := by
    intro d
    rw [spanAt]
    cases hfound : spanOf (d.line - 1) with
    | none => rfl
    | some span => exact hspan _ span hfound
  rw [hfirst, hfirst] at h
  rw [spanAt, h, spanAt]

theorem outerFirst_extentOf_iff
    (hspan : ∀ start span, spanOf start = some span → span.first = start) :
    outerFirst (extentOf spanOf lineCount e) (extentOf spanOf lineCount d) = true ↔
      (spanAt spanOf e).first ≤ (spanAt spanOf d).first := by
  rw [outerFirst_iff]
  simp only [extentOf]
  constructor
  · omega
  · intro hle
    rcases Nat.lt_or_eq_of_le hle with hlt | heq
    · exact .inl hlt
    · rw [spanAt_eq_of_first_eq hspan heq]
      exact .inr ⟨rfl, Nat.le_refl _⟩

theorem isInnermost_iff (hspan : ∀ start span, spanOf start = some span → span.first = start)
    (h : i < lineCount) :
    ((1 ≤ d.line && d.line ≤ lineCount) &&
      isGreatest outerFirst (·.reaches i) (extents spanOf lineCount ds)
      (extentOf spanOf lineCount d)) = true ↔ IsInnermost spanOf lineCount ds i d := by
  rw [Bool.and_eq_true, isGreatest_iff, ← and_assoc, ← covers_iff h, extents_eq]
  simp only [List.forall_mem_map, List.mem_filter]
  constructor
  · rintro ⟨hcovers, hgreatest⟩
    refine ⟨hcovers, ?_, ?_⟩
    · intro e he hcover
      obtain ⟨hline, hreaches⟩ := (covers_iff h).1 hcover
      exact (outerFirst_extentOf_iff hspan).1 (hgreatest e ⟨he, hline⟩ hreaches)
    · intro e he hcover hfirst
      exact Nat.le_of_eq (congrArg LineSpan.last (spanAt_eq_of_first_eq hspan hfirst).symm)
  · rintro ⟨hcovers, hfirst, -⟩
    refine ⟨hcovers, ?_⟩
    rintro e ⟨he, hline⟩ hreaches
    exact (outerFirst_extentOf_iff hspan).2 (hfirst e he ((covers_iff h).2 ⟨hline, hreaches⟩))

theorem getElem?_lineOwners_eq_none_iff (h : i < lineCount) :
    (lineOwners spanOf lineCount ds)[i]? = some none ↔ ∀ d ∈ ds, ¬Covers spanOf lineCount i d := by
  rw [getElem?_lineOwners spanOf ds h, Option.some_inj, Option.map_eq_none_iff,
    List.getLast?_eq_none_iff, List.filter_eq_nil_iff, extents_eq]
  simp only [List.mem_mergeSort, List.forall_mem_map, List.mem_filter, covers_iff h, not_and,
    and_imp]

theorem getElem?_lineOwners_eq_some_iff
    (hspan : ∀ start span, spanOf start = some span → span.first = start) (h : i < lineCount) :
    (lineOwners spanOf lineCount ds)[i]? = some (some d) ↔
    LastWith (IsInnermost spanOf lineCount ds i) ds d := by
  have hdefinition : Extent.definition ∘ extentOf spanOf lineCount = id := rfl
  rw [getElem?_lineOwners spanOf ds h, Option.some_inj,
    getLast?_filter_mergeSort outerFirst_trans outerFirst_total]
  nth_rewrite 2 [extents_eq]
  rw [List.filter_map, List.getLast?_map, Option.map_map, hdefinition, Option.map_id,
    List.filter_filter]
  refine getLast?_filter_eq_some_iff ?_
  intro e
  rw [Bool.and_comm]
  exact isInnermost_iff hspan h

/-- A line belongs to no definition just if none covers it, and else to the innermost one that does;
the last in the list, where several are innermost. -/
theorem lineOwners_innermost (spanOf : Nat → Option LineSpan)
    (hspan : ∀ start span, spanOf start = some span → span.first = start) (lineCount : Nat)
    (ds : List Definition) :
    (lineOwners spanOf lineCount ds).length = lineCount ∧ ∀ i < lineCount,
      ((lineOwners spanOf lineCount ds)[i]? = some none ↔ ∀ d ∈ ds, ¬Covers spanOf lineCount i d) ∧
      ∀ d, (lineOwners spanOf lineCount ds)[i]? = some (some d) ↔
        LastWith (IsInnermost spanOf lineCount ds i) ds d := by
  refine ⟨?_, fun i hi => ⟨getElem?_lineOwners_eq_none_iff hi,
    fun d => getElem?_lineOwners_eq_some_iff hspan hi⟩⟩
  rw [lineOwners, length_foldl_paint, List.length_replicate]

def onLine (name : String) (line : Nat) : Definition :=
  ⟨name, "", name, name, none, .module, line⟩

/-- Two spans of which neither lies within the other. -/
def overlapping (start : Nat) : Option LineSpan :=
  if start = 0 then some ⟨0, 2⟩ else if start = 1 then some ⟨1, 3⟩ else none

/-- The last of two definitions on one line has the line that an earlier one shares with them; a
definition below the last line has none. -/
theorem lineOwners_overlapping :
    (∀ start span, overlapping start = some span → span.first = start) ∧
      (lineOwners overlapping 5 [onLine "f" 1, onLine "g" 2, onLine "h" 2, onLine "k" 9])[2]? =
        some (some (onLine "h" 2)) ∧
      (lineOwners overlapping 5 [onLine "f" 1, onLine "g" 2, onLine "h" 2, onLine "k" 9])[4]? =
        some none := by
  have hspan : ∀ start span, overlapping start = some span → span.first = start := by
    intro start span
    rw [overlapping]
    split_ifs with hzero hone
    · rintro ⟨⟩
      exact hzero.symm
    · rintro ⟨⟩
      exact hone.symm
    · rintro ⟨⟩
  obtain ⟨-, howners⟩ := lineOwners_innermost overlapping hspan 5
    [onLine "f" 1, onLine "g" 2, onLine "h" 2, onLine "k" 9]
  refine ⟨hspan, ((howners 2 (by decide)).2 _).2 ?_, (howners 4 (by decide)).1.2 (by decide)⟩
  exact ⟨[onLine "f" 1, onLine "g" 2], [onLine "k" 9], rfl, by decide, by decide⟩

end CodeSurvey.CallGraph
