import CodeSurvey.Proofs.BraceEnd
import CodeSurvey.Proofs.CallGraph
import CodeSurvey.Proofs.Complexity
import CodeSurvey.Proofs.LineOwner
import CodeSurvey.Proofs.Text.Cut

/-!
# Line numbers of any kind

A stored extraction may give any line numbers to its functions: zero, one number twice, or more than
the file has lines. Whatever they are, no line is asked for that does not exist, and every function
has a score.
-/
namespace CodeSurvey

/-! ### Spans -/

/-- The span starts where asked and lies on the lines. -/
structure LineSpan.Within (lines : List (List Char)) (start : Nat) (span : LineSpan) : Prop where
  first_eq : span.first = start
  first_le : span.first ≤ span.last
  last_lt : span.last < lines.length

theorem LineSpan.within_of_byIndentation? {lines : List (List Char)} {start : Nat} {span : LineSpan}
    (h : byIndentation? lines start = some span) : span.Within lines start := by
  obtain ⟨rfl, decl, -, k, stop, hsignature, hbody⟩ := byIndentation?_eq_some_iff.1 h
  exact ⟨rfl, Nat.le_trans hsignature.start_le hbody.le_last,
    Nat.lt_of_lt_of_le hbody.last_lt hbody.stop_le⟩

theorem LineSpan.within_of_byBraces? {lines : List (List Char)} {start : Nat} {span : LineSpan}
    (h : byBraces? lines start = some span) : span.Within lines start := by
  obtain ⟨rfl, ⟨k, -, hcloses⟩ | hbodiless⟩ := byBraces?_eq_some_iff.1 h
  · obtain ⟨hstart, hlength, -⟩ := line_of_mem_fromBrace hcloses.mem
    exact ⟨rfl, hstart, hlength⟩
  · exact ⟨rfl, hbodiless.start_le, hbodiless.lt_length⟩

theorem SpanStyle.within_of_span? {style : SpanStyle} {lines : List (List Char)} {start : Nat}
    {span : LineSpan} (h : style.span? lines start = some span) : span.Within lines start := by
  cases style with
  | indentation => exact LineSpan.within_of_byIndentation? h
  | braces => exact LineSpan.within_of_byBraces? h

theorem ExtractedFile.maskedLines_ne_nil (f : ExtractedFile) (language : Language) :
    f.maskedLines language ≠ [] := by
  obtain ⟨line, rest, hpieces⟩ := Text.exists_pieces
    (mask language.lexis (language.codeView f.path f.source.content))
  rw [maskedLines, hpieces]
  exact List.cons_ne_nil line rest

/-! ### Owners -/

namespace CallGraph

variable {style : SpanStyle} {lines : List (List Char)} {ds : List Definition}

/-- Every line has a place for its owner, every owner is found among the definitions, and what a
definition covers lies on the lines. -/
structure OwnersInRange (style : SpanStyle) (lines : List (List Char)) (ds : List Definition) :
    Prop where
  length_owners : (lineOwners (style.span? lines) lines.length ds).length = lines.length
  owner_found : ∀ d, some d ∈ lineOwners (style.span? lines) lines.length ds →
    ∃ i < ds.length, ds[i]? = some d
  line_pos : ∀ x ∈ extents (style.span? lines) lines.length ds, 1 ≤ x.definition.line
  extent_within : ∀ x ∈ extents (style.span? lines) lines.length ds, x.span.Within lines
    (x.definition.line - 1)

/-- A definition without a span covers its own line. -/
theorem within_extentOf {d : Definition} (hpos : 1 ≤ d.line) (hle : d.line ≤ lines.length) :
    (extentOf (style.span? lines) lines.length d).span.Within lines (d.line - 1) := by
  have hspan : (spanAt (style.span? lines) d).Within lines (d.line - 1) := by
    rw [spanAt]
    cases hfound : style.span? lines (d.line - 1) with
    | none => exact ⟨rfl, Nat.le_refl _, Nat.lt_of_lt_of_le (Nat.sub_one_lt_of_lt hpos) hle⟩
    | some span => exact SpanStyle.within_of_span? hfound
  have hfirst := hspan.first_le
  have hlast := hspan.last_lt
  refine ⟨hspan.first_eq, ?_, ?_⟩ <;> simp only [extentOf] <;> omega

theorem ownersInRange (style : SpanStyle) (lines : List (List Char)) (ds : List Definition) :
    OwnersInRange style lines ds := by
  have hextent : ∀ x ∈ extents (style.span? lines) lines.length ds,
      1 ≤ x.definition.line ∧ x.span.Within lines (x.definition.line - 1) := by
    intro x hx
    rw [extents_eq] at hx
    obtain ⟨d, hd, rfl⟩ := List.mem_map.1 hx
    have hline := (List.mem_filter.1 hd).2
    simp only [Bool.and_eq_true, decide_eq_true_eq] at hline
    exact ⟨hline.1, within_extentOf hline.1 hline.2⟩
  refine ⟨?_, ?_, fun x hx => (hextent x hx).1, fun x hx => (hextent x hx).2⟩
  · rw [lineOwners, length_foldl_paint, List.length_replicate]
  · intro d hd
    obtain ⟨i, hi⟩ := List.mem_iff_getElem?.1 (mem_of_mem_lineOwners hd)
    exact ⟨i, (List.getElem?_eq_some_iff.1 hi).1, hi⟩

end CallGraph

/-! ### Scores -/

namespace Complexity

variable {functions : List Declaration} {line lineCount : Nat}

/-- The range from the declaration on `line` on lies on the lines. It goes up to the next
declaration or to the end. -/
structure FallbackInRange (functions : List Declaration) (line lineCount : Nat)
    (range : Nat × Nat) : Prop where
  start_eq : range.1 = min (line - 1) lineCount
  start_le : range.1 ≤ range.2
  stop_le : range.2 ≤ lineCount
  alone : ∀ d ∈ functions, range.1 ≤ d.line - 1 → d.line - 1 < range.2 → d.line - 1 = range.1
  ends : range.2 = lineCount ∨ ∃ d ∈ functions, d.line - 1 = range.2

/-- Of the numbers past `start` the least one is taken. -/
theorem min?_filter_getD (start lineCount : Nat) (numbers : List Nat) :
    let next := (numbers.filter (start < ·)).min?.getD lineCount
    (∀ n ∈ numbers, start < n → next ≤ n) ∧ (next = lineCount ∨ next ∈ numbers ∧ start < next) := by
  cases hmin : (numbers.filter (start < ·)).min? with
  | none =>
    rw [List.min?_eq_none_iff, List.filter_eq_nil_iff] at hmin
    refine ⟨?_, .inl rfl⟩
    intro n hn hlt
    exact absurd (decide_eq_true hlt) (hmin n hn)
  | some next =>
    obtain ⟨hmem, hleast⟩ := List.min?_eq_some_iff.1 hmin
    obtain ⟨hnumber, hlt⟩ := List.mem_filter.1 hmem
    refine ⟨?_, .inr ⟨hnumber, of_decide_eq_true hlt⟩⟩
    intro n hn hafter
    exact hleast n (List.mem_filter.2 ⟨hn, decide_eq_true hafter⟩)

theorem fallbackInRange (functions : List Declaration) (line lineCount : Nat) :
    FallbackInRange functions line lineCount (fallbackRange functions line lineCount) := by
  have hnext := min?_filter_getD (min (line - 1) lineCount) lineCount
    (functions.map fun f => f.line - 1)
  rw [fallbackRange]
  generalize
    ((functions.map fun f => f.line - 1).filter (min (line - 1) lineCount < ·)).min?.getD lineCount
      = next at *
  obtain ⟨hleast, hends⟩ := hnext
  have hstart : min (line - 1) lineCount ≤ next := by
    rcases hends with rfl | ⟨-, hlt⟩ <;> omega
  refine ⟨rfl, ?_, Nat.min_le_right _ _, ?_, ?_⟩
  · exact Nat.le_min.2 ⟨hstart, Nat.min_le_right _ _⟩
  · intro d hd hle hlt
    by_contra hne
    have hpast := hleast (d.line - 1) (List.mem_map_of_mem hd) (by dsimp only at hle hne; omega)
    dsimp only at hlt
    omega
  · rcases hends with rfl | ⟨hmem, -⟩
    · exact .inl (Nat.min_self _)
    · obtain ⟨d, hd, hline⟩ := List.mem_map.1 hmem
      rcases Nat.le_total next lineCount with hle | hle
      · exact .inr ⟨d, hd, hline.trans (Nat.min_eq_left hle).symm⟩
      · exact .inl (Nat.min_eq_right hle)

/-- The lines from `start` on up to `stop`, if there are so many. -/
def slice? (lines : List (List Char)) (start stop : Nat) : Option (List (List Char)) :=
  if start ≤ stop ∧ stop ≤ lines.length then some (LineSpan.between lines start stop) else none

theorem slice?_eq_some {lines : List (List Char)} {start stop : Nat} (hstart : start ≤ stop)
    (hstop : stop ≤ lines.length) : slice? lines start stop =
      some ((lines.take stop).drop start) := by
  rw [slice?, if_pos ⟨hstart, hstop⟩, LineSpan.between, List.drop_take]

/-- The lines of a function, if all that are asked for exist. -/
def functionLines? (style : SpanStyle) (lines : List (List Char)) (functions : List Declaration)
    (d : Declaration) :
    Option (List (List Char)) :=
  match if d.line = 0 then none else style.span? lines (d.line - 1) with
  | some s => slice? lines s.first (s.last + 1)
  | none =>
    let range := fallbackRange functions d.line lines.length
    slice? lines range.1 range.2

theorem functionLines?_eq (style : SpanStyle) (lines : List (List Char))
    (functions : List Declaration) (d : Declaration) :
      functionLines? style lines functions d = some (functionLines style lines functions d) := by
  cases hs : (if d.line = 0 then none else style.span? lines (d.line - 1)) with
  | some s =>
    have hspan : style.span? lines (d.line - 1) = some s := by
      split_ifs at hs
      exact hs
    have hwithin := SpanStyle.within_of_span? hspan
    simp only [functionLines?, functionLines, hs]
    exact slice?_eq_some (Nat.le_succ_of_le hwithin.first_le) hwithin.last_lt
  | none =>
    have hrange := fallbackInRange functions d.line lines.length
    simp only [functionLines?, functionLines, hs]
    exact slice?_eq_some hrange.start_le hrange.stop_le

/-- The scores of a file, if all lines that are asked for exist. -/
def ofFile? (registry : Registry) (f : ExtractedFile) : Option (List (String × Complexity)) :=
  match registry.forPath? f.path with
  | none => some []
  | some r => f.functions.mapM fun d =>
    (functionLines? r.language.spanStyle (f.maskedLines r.language) f.functions d).map fun lines =>
      (Definition.idOf f.path d.name, ofText r.language (Text.joined "\n" lines))

theorem mapM_eq_some_map {α β : Type} {f : α → Option β} {g : α → β} {xs : List α}
    (h : ∀ x ∈ xs, f x = some (g x)) :
    xs.mapM f = some (xs.map g) := by
  induction xs with
  | nil => rfl
  | cons x xs ih =>
    obtain ⟨hx, hxs⟩ := List.forall_mem_cons.1 h
    rw [List.mapM_cons, hx, ih hxs]
    rfl

theorem ofFile?_eq (registry : Registry) (f : ExtractedFile) :
    ofFile? registry f = some (ofFile registry f) := by
  rw [ofFile?, ofFile]
  cases registry.forPath? f.path with
  | none => rfl
  | some r =>
    dsimp only
    rw [mapM_eq_some_map fun d _ => by rw [functionLines?_eq]; rfl]
    split
    next hempty => rw [List.isEmpty_iff.1 hempty]; rfl
    next => rfl

/-- The scores of all files, if all lines that are asked for exist. -/
def Report.ofFiles? (registry : Registry) (files : List ExtractedFile) : Option Report :=
  (files.mapM (ofFile? registry)).map fun scores => ⟨Table.ofList scores.flatten⟩

theorem Report.ofFiles?_eq (registry : Registry) (files : List ExtractedFile) :
    ofFiles? registry files = some (ofFiles registry files) := by
  rw [ofFiles?, mapM_eq_some_map fun f _ => ofFile?_eq registry f]
  rfl

/-- The functions that are scored are those of the files that a language reads. -/
theorem Report.mem_keys_ofFiles {registry : Registry} {files : List ExtractedFile} {id : String} :
    id ∈ (ofFiles registry files).functions.keys ↔
      ∃ f ∈ files, (registry.forPath? f.path).isSome = true ∧
      ∃ d ∈ f.functions, id = Definition.idOf f.path d.name := by
  have hfile : ∀ f, id ∈ (ofFile registry f).map Prod.fst ↔
      (registry.forPath? f.path).isSome = true ∧
      ∃ d ∈ f.functions, id = Definition.idOf f.path d.name := by
    intro f
    cases hread : (registry.forPath? f.path).isSome with
    | false =>
      rw [ofFile, Option.isSome_eq_false_iff.1 hread |> Option.isNone_iff_eq_none.1]
      simp
    | true =>
      rw [map_fst_ofFile fun _ => hread, List.mem_map]
      simp only [true_and, eq_comm]
  rw [ofFiles, Table.mem_keys_ofList, List.map_flatMap, List.mem_flatMap]
  simp only [hfile]

end Complexity

/-- Line numbers of any kind do no harm in the files: spans and fallback ranges lie on the lines,
whatever lines and functions they are made from; so do the lines that calls are read from; and the
scores, each read from lines that exist, are there for every function of a file that a language
reads. -/
structure KeepsInRange (registry : Registry) (files : List ExtractedFile) : Prop where
  spans : ∀ (style : SpanStyle) lines start span, style.span? lines start = some span →
    span.Within lines start
  fallbacks : ∀ functions line lineCount,
    Complexity.FallbackInRange functions line lineCount
      (Complexity.fallbackRange functions line lineCount)
  lines_ne_nil : ∀ f ∈ files, ∀ language, f.maskedLines language ≠ []
  owners : ∀ f ∈ files, ∀ language : Language, CallGraph.OwnersInRange language.spanStyle
    (f.maskedLines language)
    ((CallGraph.ofFiles registry files).table.inFile f.path)
  slices : Complexity.Report.ofFiles? registry files =
    some (Complexity.Report.ofFiles registry files)
  scored : ∀ id, id ∈ (Complexity.Report.ofFiles registry files).functions.keys ↔
    ∃ f ∈ files, (registry.forPath? f.path).isSome = true ∧
    ∃ d ∈ f.functions, id = Definition.idOf f.path d.name

theorem line_numbers_in_range (registry : Registry) (files : List ExtractedFile) :
    KeepsInRange registry files where
  spans _ _ _ _ := SpanStyle.within_of_span?
  fallbacks := Complexity.fallbackInRange
  lines_ne_nil f _ language := f.maskedLines_ne_nil language
  owners _ _ _ := CallGraph.ownersInRange _ _ _
  slices := Complexity.Report.ofFiles?_eq registry files
  scored _ := Complexity.Report.mem_keys_ofFiles

end CodeSurvey
