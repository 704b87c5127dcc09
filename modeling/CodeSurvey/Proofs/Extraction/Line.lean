import CodeSurvey.Extraction
import CodeSurvey.Proofs.Text.Line
import Mathlib.Data.List.Forall2

/-!
# Lines of what is extracted

No declaration and no entry point lies past the last line of its text.
-/
namespace CodeSurvey

namespace Declaration

theorem firstOfEachName_cons (d : Declaration) (ds : List Declaration) :
    firstOfEachName (d :: ds) = d :: firstOfEachName (ds.filter fun e => e.name ≠ d.name) := by
  rw [firstOfEachName, List.eraseDupsBy_cons, firstOfEachName]
  simp

/-- A proof about the first of each name goes from the declarations of other names to all of
them. -/
theorem firstOfEachName_induction {P : List Declaration → List Declaration → Prop} (hnil : P [] [])
    (hcons : ∀ d ds, P (ds.filter fun e => e.name ≠ d.name)
      (firstOfEachName (ds.filter fun e => e.name ≠ d.name)) →
      P (d :: ds) (d :: firstOfEachName (ds.filter fun e => e.name ≠ d.name)))
        (ds : List Declaration) :
    P ds (firstOfEachName ds) := by
  generalize hn : ds.length = n
  induction n using Nat.strongRecOn generalizing ds with
  | _ n ih =>
    cases ds with
    | nil => exact hnil
    | cons d ds =>
      have hlen := List.length_filter_le (fun e : Declaration => e.name ≠ d.name) ds
      rw [List.length_cons] at hn
      rw [firstOfEachName_cons]
      exact hcons d ds (ih _ (by omega) _ rfl)

theorem firstOfEachName_sublist (ds : List Declaration) : (firstOfEachName ds).Sublist ds := by
  refine firstOfEachName_induction (P := fun ds kept => kept.Sublist ds) .slnil
    (fun d ds ih => ?_) ds
  exact (ih.trans List.filter_sublist).cons_cons d

theorem mem_of_mem_firstOfEachName {ds : List Declaration} {d : Declaration}
    (h : d ∈ firstOfEachName ds) : d ∈ ds :=
  (firstOfEachName_sublist ds).subset h

theorem nodup_name_firstOfEachName (ds : List Declaration) :
    ((firstOfEachName ds).map name).Nodup := by
  refine firstOfEachName_induction (P := fun _ kept => (kept.map name).Nodup) .nil
    (fun d ds ih => ?_) ds
  rw [List.map_cons, List.nodup_cons]
  refine ⟨fun hmem => ?_, ih⟩
  obtain ⟨e, he, hname⟩ := List.mem_map.1 hmem
  simpa [hname] using (List.mem_filter.1 (mem_of_mem_firstOfEachName he)).2

end Declaration

/-! ### Declarations -/

theorem exists_left_of_forall₂ {α β : Type} {R : α → β → Prop} {as : List α} {bs : List β}
    (h : List.Forall₂ R as bs) {i : Nat} {b : β} (hb : bs[i]? = some b) :
      ∃ a, as[i]? = some a ∧ R a b := by
  induction h generalizing i with
  | nil => simp at hb
  | @cons a b' _ _ hab _ ih =>
    cases i with
    | zero =>
      obtain rfl : b' = b := by simpa using hb
      exact ⟨a, rfl, hab⟩
    | succ i => exact ih hb

namespace Python

theorem visit_line {s : SourceText} {n : Nat} {w : Walk} {entry : List Char × Nat}
    (hw : ∀ d ∈ w.found, d.line ≤ n) (hentry : entry.2 < n) :
      ∀ d ∈ (visit s w entry).found, d.line ≤ n := by
  obtain ⟨line, i⟩ := entry
  rw [visit]
  split
  · exact hw
  · split
    · exact hw
    · split
      · exact hw
      · intro d hd
        rcases List.mem_cons.1 hd with rfl | hd
        · exact hentry
        · exact hw d hd

theorem declarations_line {text : List Char} {d : Declaration} (h : d ∈ declarations text) :
    d.line ≤ Text.lineCount text := by
  have hwalk := List.foldlRecOn (motive :=
    fun w : Walk => ∀ d ∈ w.found, d.line ≤ Text.lineCount text)
    (SourceText.ofText lexis text).numberedLines (visit (.ofText lexis text)) (b := ⟨.empty, 0, []⟩)
    (by simp)
    fun w hw entry hentry => visit_line hw (SourceText.lt_of_mem_numberedLines hentry)
  exact hwalk d (List.mem_reverse.1 (Declaration.mem_of_mem_firstOfEachName h))

end Python

namespace JavaScript

theorem takeCandidates_line {s : SourceText} {n i depth : Nat} (hi : i < n) {stack : ScopeStack}
    {found : List Declaration} {cs : List Candidate} (h : ∀ d ∈ found, d.line ≤ n) :
    ∀ d ∈ (takeCandidates s i depth stack found cs).2.1, d.line ≤ n := by
  induction cs generalizing stack found with
  | nil => exact h
  | cons c cs ih =>
    rw [takeCandidates]
    by_cases hline : (c.line == i) = true
    · rw [if_pos hline]
      dsimp only
      split
      · exact ih h
      · refine ih ?_
        intro d hd
        rcases List.mem_cons.1 hd with rfl | hd
        · rw [← beq_iff_eq.1 hline] at hi
          exact hi
        · exact h d hd
    · rw [if_neg hline]
      exact h

theorem visit_line {s : SourceText} {n : Nat} {w : Walk} {entry : (List Char × Nat) × Nat}
    (hw : ∀ d ∈ w.found, d.line ≤ n) (hentry : entry.1.2 < n) :
    ∀ d ∈ (visit s w entry).found, d.line ≤ n := by
  obtain ⟨⟨line, i⟩, depth⟩ := entry
  rw [visit]
  split
  · exact hw
  · exact takeCandidates_line hentry hw

theorem declarations_line {text : List Char} {d : Declaration} (h : d ∈ declarations text) :
    d.line ≤ Text.lineCount text := by
  have hwalk : ∀ d ∈ (walk (.ofText lexis text)).found, d.line ≤ Text.lineCount text :=
    List.foldlRecOn (motive := fun w : Walk => ∀ d ∈ w.found, d.line ≤ Text.lineCount text)
      _ (visit (.ofText lexis text)) (by simp [startWalk])
      fun w hw entry hentry =>
        visit_line hw (SourceText.lt_of_mem_numberedLines (List.of_mem_zip hentry).1)
  have hmem := Declaration.mem_of_mem_firstOfEachName h
  obtain ⟨e, he, rfl⟩ := List.mem_map.1 hmem
  have hline : (markExported (exportedNames (SourceText.ofText lexis text).masked) e).line =
      e.line := by
    rw [markExported]
    split <;> rfl
  rw [hline]
  exact hwalk e (List.mem_reverse.1 he)

theorem forall₂_scriptLines (inScript : Bool) (lines : List (List Char)) :
    List.Forall₂ (fun line shown => shown = [] ∨ shown = line) lines
      (scriptLines inScript lines) := by
  induction lines generalizing inScript with
  | nil => exact .nil
  | cons line lines ih =>
    rw [scriptLines]
    split
    · exact .cons (.inl rfl) (ih false)
    · split
      · exact .cons (.inl rfl) (ih true)
      · cases inScript with
        | true => exact .cons (.inr rfl) (ih true)
        | false => exact .cons (.inl rfl) (ih false)

/-- Each line of the code of a file is that line of the file, or empty. -/
theorem forall₂_codeView (path : String) (text : List Char) :
    List.Forall₂ (fun line shown => shown = [] ∨ shown = line) (Text.pieces text)
      (Text.pieces (codeView path text)) := by
  have hlines := forall₂_scriptLines false (Text.pieces text)
  rw [codeView]
  split
  · have hne : scriptLines false (Text.pieces text) ≠ [] := by
      intro hnil
      rw [hnil] at hlines
      exact List.splitOn_ne_nil _ _ (List.forall₂_nil_right_iff.1 hlines)
    have hnewline : ∀ shown ∈ scriptLines false (Text.pieces text), '\n' ∉ shown := by
      intro shown hshown
      obtain ⟨i, hi⟩ := List.mem_iff_getElem?.1 hshown
      obtain ⟨line, hline, rfl | rfl⟩ := exists_left_of_forall₂ hlines hi
      · simp
      · exact Text.not_mem_of_mem_pieces (List.mem_of_getElem? hline)
    have hpieces : Text.pieces (scriptView text) = scriptLines false (Text.pieces text) :=
      List.splitOn_intercalate '\n' hnewline hne
    rwa [hpieces]
  · exact List.forall₂_same.2 fun line _ => .inr rfl

theorem lineCount_codeView (path : String) (text : List Char) :
    Text.lineCount (codeView path text) = Text.lineCount text := by
  rw [← Text.length_pieces, ← Text.length_pieces, (forall₂_codeView path text).length_eq]

end JavaScript

namespace Swift

theorem visit_line {s : SourceText} {n : Nat} {w : Walk} {entry : (List Char × Nat) × Nat}
    (hw : ∀ d ∈ w.found, d.line ≤ n) (hentry : entry.1.2 < n) :
    ∀ d ∈ (visit s w entry).found, d.line ≤ n := by
  obtain ⟨⟨line, i⟩, depth⟩ := entry
  rw [visit]
  split
  · exact hw
  · split
    · exact hw
    · split
      · exact hw
      · intro d hd
        rcases List.mem_cons.1 hd with rfl | hd
        · exact hentry
        · exact hw d hd

theorem declarations_line {text : List Char} {d : Declaration} (h : d ∈ declarations text) :
    d.line ≤ Text.lineCount text := by
  have hwalk := List.foldlRecOn (motive :=
    fun w : Walk => ∀ d ∈ w.found, d.line ≤ Text.lineCount text)
    ((SourceText.ofText lexis text).numberedLines.zip
      (braceDepths (SourceText.ofText lexis text).masked))
    (visit (.ofText lexis text)) (b := ⟨.empty, []⟩) (by simp)
    fun w hw entry hentry => visit_line hw
      (SourceText.lt_of_mem_numberedLines (List.of_mem_zip hentry).1)
  exact hwalk d (List.mem_reverse.1 (Declaration.mem_of_mem_firstOfEachName h))

end Swift

theorem Language.declarations_line (language : Language) {text : List Char} {d : Declaration}
    (h : d ∈ language.declarations text) : d.line ≤ Text.lineCount text := by
  cases language with
  | python => exact Python.declarations_line h
  | javaScript => exact JavaScript.declarations_line h
  | swift => exact Swift.declarations_line h

theorem Language.lineCount_codeView (language : Language) (path : String) (text : List Char) :
    Text.lineCount (language.codeView path text) = Text.lineCount text := by
  cases language with
  | python => rfl
  | javaScript => exact JavaScript.lineCount_codeView path text
  | swift => rfl

/-! ### Entry points -/

namespace Python

theorem routeEntry_line {rawLines : List (List Char)} {path : String} {i : Nat} {kind : EntryKind}
    {trigger : Option String} {e : EntryPoint} (h : e ∈ routeEntry rawLines path i kind trigger) :
    e.line ≤ rawLines.length := by
  unfold routeEntry at h
  split at h
  · rename_i name j hj
    rw [decorated?] at hj
    obtain ⟨⟨line, k⟩, hmem, hk⟩ := List.exists_of_findSome?_eq_some hj
    obtain ⟨m, -, hm⟩ := Option.map_eq_some_iff.1 hk
    obtain ⟨-, rfl⟩ := Prod.mk.injEq .. ▸ hm
    have hlt := (List.mem_zipIdx' (List.mem_of_mem_drop (List.mem_of_mem_take hmem))).1
    rw [List.mem_singleton] at h
    rw [h]
    exact hlt
  · cases h

theorem lineEntries_line {rawLines : List (List Char)} {path : String} {i : Nat}
    (hi : i < rawLines.length) {raw masked : List Char} {e : EntryPoint}
    (h : e ∈ lineEntries rawLines path i raw masked) :
    e.line ≤ rawLines.length := by
  rw [lineEntries] at h
  split at h
  · cases h
  · simp only [List.mem_append, List.mem_ite_nil_right, List.mem_singleton] at h
    rcases h with (((⟨-, rfl⟩ | h) | h) | h) | ⟨-, rfl⟩
    · exact hi
    · exact routeEntry_line h
    · exact routeEntry_line h
    · exact routeEntry_line h
    · exact hi

theorem entryPoints_line {path : String} {text : List Char} {e : EntryPoint}
    (h : e ∈ entryPoints path text) :
    e.line ≤ Text.lineCount text := by
  have hraw : (SourceText.ofText lexis text).rawLines.length = Text.lineCount text :=
    Text.length_pieces text
  rcases List.mem_append.1 h with h | h
  · split at h
    · rw [List.mem_singleton] at h
      rw [h]
      exact Nat.succ_le_succ (Nat.zero_le _)
    · cases h
  · obtain ⟨⟨raw, masked, i⟩, hmem, he⟩ := List.mem_flatMap.1 h
    have hi := SourceText.lt_of_mem_numberedLines (List.of_mem_zip hmem).2
    rw [← hraw] at hi ⊢
    exact lineEntries_line hi he

end Python

namespace JavaScript

theorem lineEntryPoint?_line {lines : List (List Char)} {path : String} {i : Nat} {line : List Char}
    {e : EntryPoint} (h : lineEntryPoint? lines path i line = some e) : e.line = i + 1 := by
  rw [lineEntryPoint?] at h
  obtain ⟨m, -, h⟩ := Option.bind_eq_some_iff.1 h
  dsimp only at h
  split at h
  · obtain rfl := Option.some.inj h
    rfl
  · split at h
    · obtain rfl := Option.some.inj h
      rfl
    · cases h

theorem entryPoints_line {path : String} {text : List Char} {e : EntryPoint}
    (h : e ∈ entryPoints path text) :
    e.line ≤ Text.lineCount text := by
  rw [entryPoints] at h
  split at h
  · obtain ⟨⟨line, i⟩, hmem, he⟩ := List.mem_filterMap.1 h
    have hi := (List.mem_zipIdx' hmem).1
    rw [Text.length_pieces, lineCount_mask] at hi
    rw [lineEntryPoint?_line he]
    exact hi
  · cases h

end JavaScript

namespace Swift

theorem conformingEntries_line {path : String} {masked : List Char} {kind : EntryKind} {p : Pattern}
    {e : EntryPoint} (h : e ∈ conformingEntries (.ofText masked) path masked kind p) :
    e.line ≤ Text.lineCount masked := by
  obtain ⟨m, -, rfl⟩ := List.mem_map.1 h
  exact Text.LineIndex.lineOf_lt masked _

theorem entryPoints_line {path : String} {text : List Char} {e : EntryPoint}
    (h : e ∈ entryPoints path text) :
    e.line ≤ Text.lineCount text := by
  rw [← lineCount_mask lexis]
  rw [entryPoints, List.mem_mergeSort] at h
  simp only [List.mem_append] at h
  rcases h with ((h | h) | h) | h
  · obtain ⟨m, -, rfl⟩ := List.mem_map.1 h
    exact Text.LineIndex.lineOf_lt _ _
  · exact conformingEntries_line (List.mem_filter.1 h).1
  · exact conformingEntries_line h
  · exact conformingEntries_line h

end Swift

theorem Language.entryPoints_line (language : Language) {path : String} {text : List Char}
    {e : EntryPoint} (h : e ∈ language.entryPoints path text) : e.line ≤ Text.lineCount text := by
  cases language with
  | python => exact Python.entryPoints_line h
  | javaScript => exact JavaScript.entryPoints_line h
  | swift => exact Swift.entryPoints_line h

namespace Document

theorem pageEntries_line {path : String} {text : List Char} {e : EntryPoint}
    (h : e ∈ pageEntries path text) :
    e.line ≤ Text.lineCount text := by
  rcases List.mem_append.1 h with h | h
  · obtain ⟨m, -, rfl⟩ := List.mem_map.1 h
    exact Text.LineIndex.lineOf_lt text _
  · obtain ⟨⟨m, n⟩, -, rfl⟩ := List.mem_map.1 h
    exact Text.LineIndex.lineOf_lt text _

theorem packageEntries_line {path : String} {package : Json} {e : EntryPoint}
    (h : e ∈ packageEntries path package) : e.line = 1 := by
  have hentry : ∀ kind name field value, (packageEntry kind name path field value).line = 1 :=
    fun _ _ _ _ => rfl
  simp only [packageEntries, List.mem_append] at h
  rcases h with (h | h) | h
  · unfold mainEntries at h
    split at h <;> simp_all
  · unfold binEntries at h
    split at h <;> grind
  · unfold exportEntries at h
    split at h <;> grind

theorem nodeEntryPoint?_line {path : String} {node : Json} {e : EntryPoint}
    (h : nodeEntryPoint? path node = some e) : e.line = 0 := by
  obtain ⟨p, -, rfl⟩ := Option.map_eq_some_iff.1 h
  rfl

theorem workflowEntries_line {path : String} {workflow : Json} {e : EntryPoint}
    (h : e ∈ workflowEntries path workflow) : e.line = 0 := by
  unfold workflowEntries at h
  split at h
  · obtain ⟨node, -, he⟩ := List.mem_filterMap.1 h
    exact nodeEntryPoint?_line he
  · cases h

theorem entryPoints_line {kind : DocumentKind} {path : String} {text : List Char} {e : EntryPoint}
    (h : e ∈ entryPoints kind path text) : e.line ≤ Text.lineCount text := by
  cases kind with
  | html => exact pageEntries_line h
  | packageManifest =>
    rw [entryPoints] at h
    cases hparse : Json.parsePlain? (String.ofList text) with
    | none => simp [hparse] at h
    | some package =>
      rw [hparse] at h
      rw [packageEntries_line h]
      exact Nat.succ_le_succ (Nat.zero_le _)
  | workflow =>
    rw [entryPoints] at h
    cases hparse : Json.parsePlain? (String.ofList text) with
    | none => simp [hparse] at h
    | some workflow =>
      rw [hparse] at h
      rw [workflowEntries_line h]
      exact Nat.zero_le _

end Document

/-! ### Extractions -/

/-- Nothing in the extraction lies past line `n`. -/
structure Extraction.LinesWithin (n : Nat) (x : Extraction) : Prop where
  functions : ∀ d ∈ x.functions, d.line ≤ n
  entryPoints : ∀ e ∈ x.fileMeta.entryPoints, e.line ≤ n

theorem Extraction.linesWithin_ofCode (language : Language) (caps : Capabilities) (path : String)
    (truncated : Bool) (text : List Char) :
    (ofCode language caps path truncated text).LinesWithin (Text.lineCount text) := by
  have hview := language.lineCount_codeView path text
  constructor
  · intro d hd
    obtain ⟨d', hd', rfl⟩ := List.mem_map.1 hd
    rw [← hview]
    have hline : d'.line ≤ _ := language.declarations_line hd'
    exact hline
  · intro e he
    rw [← hview]
    simp only [ofCode] at he
    split at he
    · exact language.entryPoints_line he
    · cases he

theorem Extraction.linesWithin_ofDocument (kind : DocumentKind) (path : String) (truncated : Bool)
    (text : List Char) : (ofDocument kind path truncated text).LinesWithin
    (Text.lineCount text) where
  functions := by simp [ofDocument]
  entryPoints _ he := Document.entryPoints_line he

end CodeSurvey
