import CodeSurvey.DeadCode
import CodeSurvey.Proofs.CallGraph
import Mathlib.Data.List.Sort

/-!
# Which functions are dead

The report names the functions that no function calls and that nothing exempts, each as often as it
is declared. It goes through the declarations of a file and through the definitions of the symbol
table side by side; these agree as long as no two files have one path.
-/
namespace CodeSurvey

theorem Text.hasSub_iff {sub cs : List Char} : hasSub sub cs = true ↔ sub <:+: cs := by
  rw [hasSub]
  induction cs with
  | nil =>
    rw [cut?, List.infix_nil]
    cases sub <;> simp
  | cons c cs ih =>
    rw [cut?, List.infix_cons_iff, ← List.isPrefixOf_iff_prefix, ← ih]
    by_cases h : sub.isPrefixOf (c :: cs) = true <;> simp [h]

/-! ### Exemptions -/

/-- A marker, if there is one, occurs in the text whatever the case of ASCII letters. -/
def Marked (marker text : String) : Prop :=
  marker ≠ "" ∧ Text.lower marker.toList <:+: Text.lower text.toList

instance (marker text : String) : Decidable (Marked marker text) :=
  inferInstanceAs (Decidable (_ ∧ _))

namespace Declaration

/-- The qualified or the simple name is that of an entry point. -/
def IsEntryPoint (d : Declaration) (entryPoints : List EntryPoint) : Prop :=
  ∃ e ∈ entryPoints, e.name = d.name ∨ e.name = d.simpleName

instance (d : Declaration) (entryPoints : List EntryPoint) :
    Decidable (d.IsEntryPoint entryPoints) :=
  inferInstanceAs (Decidable (∃ e ∈ entryPoints, _))

/-- The simple name is longer than four bytes and has a double underscore at both ends. -/
def HasDunderName (d : Declaration) : Prop :=
  4 < d.simpleName.utf8ByteSize ∧ ['_', '_'] <+: d.simpleName.toList ∧
  ['_', '_'] <:+ d.simpleName.toList

instance (d : Declaration) : Decidable d.HasDunderName :=
  inferInstanceAs (Decidable (_ ∧ _ ∧ _))

/-- There is a reason to keep a function of the file `path` although nothing calls it. -/
def Exempt (d : Declaration) (path : String) (entryPoints : List EntryPoint) (marker : String) :
    Prop :=
  d.IsEntryPoint entryPoints ∨ d.scope = .module ∨
    (Marked marker d.simpleName ∨ Marked marker path) ∨
    d.HasDunderName ∨ d.exported = true

instance (d : Declaration) (path : String) (entryPoints : List EntryPoint) (marker : String) :
    Decidable (d.Exempt path entryPoints marker) :=
  inferInstanceAs (Decidable (_ ∨ _ ∨ (_ ∨ _) ∨ _ ∨ _))

/-- What decides about a function of the file `path`. -/
def suspect (d : Declaration) (path : String) : Suspect :=
  ⟨d.name, d.simpleName, d.scope, d.exported, path⟩

end Declaration

theorem marks_iff {marker text : String} :
    marks (String.ofList (Text.lower marker.toList)) text = true ↔ Marked marker text := by
  have hempty : String.ofList (Text.lower marker.toList) = "" ↔ marker = "" := by
    rw [← String.toList_inj, String.toList_ofList, ← String.toList_inj, Text.lower]
    exact List.map_eq_nil_iff
  rw [marks, Marked, Bool.and_eq_true, bne_iff_ne, Ne, hempty, String.toList_ofList,
    Text.hasSub_iff]

theorem isDunder_iff {d : Declaration} : isDunder d.simpleName = true ↔ d.HasDunderName := by
  rw [isDunder, Declaration.HasDunderName, Bool.and_eq_true, Bool.and_eq_true, decide_eq_true_iff,
    and_assoc, List.isPrefixOf_iff_prefix, List.isSuffixOf_iff_suffix]

theorem isEntryPoint_iff {d : Declaration} {entryPoints : List EntryPoint} :
    (entryPoints.map EntryPoint.name).contains d.name = true ∨
      (entryPoints.map EntryPoint.name).contains d.simpleName = true ↔
      d.IsEntryPoint entryPoints := by
  rw [List.contains_iff_mem, List.contains_iff_mem, List.mem_map, List.mem_map, ← exists_or]
  simp only [← and_or_left]
  rfl

theorem exemption?_suspect {d : Declaration} {path marker : String}
    {entryPoints : List EntryPoint} :
    ((d.suspect path).exemption? (entryPoints.map EntryPoint.name)
      (String.ofList (Text.lower marker.toList))).isNone = true ↔
      ¬d.Exempt path entryPoints marker := by
  simp only [Suspect.exemption?, Declaration.suspect, Declaration.Exempt, isEntryPoint_iff,
    Bool.or_eq_true, marks_iff, isDunder_iff]
  split_ifs <;> simp [*]

/-! ### The report -/

/-- No function calls the function and nothing exempts it. -/
def IsDead (calls : CallGraph) (entryPoints : List EntryPoint) (marker : String)
    (p : String × Declaration) : Prop :=
  (∀ e ∈ calls.callees, Definition.idOf p.1 p.2.name ∉ e.2) ∧ ¬p.2.Exempt p.1 entryPoints marker

instance (calls : CallGraph) (entryPoints : List EntryPoint) (marker : String) :
    DecidablePred (IsDead calls entryPoints marker) :=
  fun _ => inferInstanceAs (Decidable (_ ∧ ¬_))

/-- The ids of the dead functions, in the order of the files. -/
def deadIds (files : List ExtractedFile) (calls : CallGraph) (entryPoints : List EntryPoint)
    (marker : String) :
    List String :=
  ((declaredFunctions files).filter (IsDead calls entryPoints marker ·)).map fun p =>
    Definition.idOf p.1 p.2.name

theorem suspects_eq {files : List ExtractedFile} {calls : CallGraph}
    (hpaths : (files.map ExtractedFile.path).Nodup) (htable : calls.table = .ofFiles files) :
    suspects calls files =
      (declaredFunctions files).map fun p => (Definition.idOf p.1 p.2.name, p.2.suspect p.1) := by
  rw [suspects, declaredFunctions, List.map_flatMap]
  refine List.flatMap_congr ?_
  intro f hf
  have hzip : f.functions.zip (f.functions.map (Definition.ofDeclaration f.path)) =
      f.functions.map fun d => (d, Definition.ofDeclaration f.path d) := by
    simpa using List.zip_map' (f := id) (g := Definition.ofDeclaration f.path) (l := f.functions)
  rw [htable, SymbolTable.inFile_ofFiles_of_nodup hpaths hf, hzip, List.map_map, List.map_map]
  rfl

theorem deadFunctions_eq {files : List ExtractedFile} {calls : CallGraph}
    (hpaths : (files.map ExtractedFile.path).Nodup) (htable : calls.table = .ofFiles files)
    (entryPoints : List EntryPoint) (marker : String) :
    deadFunctions files calls entryPoints marker =
      (deadIds files calls entryPoints marker).mergeSort := by
  have hkeep : ∀ p ∈ declaredFunctions files,
      (!calls.called.contains (Definition.idOf p.1 p.2.name) &&
        ((p.2.suspect p.1).exemption? (entryPoints.map EntryPoint.name)
          (String.ofList (Text.lower marker.toList))).isNone) =
            decide (IsDead calls entryPoints marker p) := by
    intro p _
    rw [Bool.eq_iff_iff, decide_eq_true_iff, Bool.and_eq_true, exemption?_suspect, IsDead,
      Bool.not_eq_true', List.contains_eq_mem, decide_eq_false_iff_not, CallGraph.called,
      List.mem_flatMap]
    push Not
    rfl
  simp only [deadFunctions, suspects_eq hpaths htable, List.filter_map, List.map_map]
  rw [deadIds, ← List.filter_congr hkeep]
  rfl

theorem mem_deadIds {files : List ExtractedFile} {calls : CallGraph} {entryPoints : List EntryPoint}
    {marker id : String} :
    id ∈ deadIds files calls entryPoints marker ↔
      ∃ p ∈ declaredFunctions files, IsDead calls entryPoints marker p ∧
      Definition.idOf p.1 p.2.name = id := by
  simp only [deadIds, List.mem_map, List.mem_filter, decide_eq_true_iff, and_assoc]

theorem IsDead.of_more {calls : CallGraph} (hsorted : calls.callees.Sorted)
    {more : List (String × String)} {entryPoints others : List EntryPoint}
    (hothers : entryPoints ⊆ others) {marker : String} {p : String × Declaration}
    (h : IsDead (calls.addCalls more) others marker p) :
    IsDead calls entryPoints marker p := by
  refine ⟨fun e he hid => ?_, fun hexempt => h.2 ?_⟩
  · obtain ⟨e, he, hid⟩ := CallGraph.mem_callees_addCalls hsorted more ⟨e, he, hid⟩
    exact h.1 e he hid
  · refine hexempt.imp_left ?_
    rintro ⟨e, he, hname⟩
    exact ⟨e, hothers he, hname⟩

theorem deadIds_sublist {calls : CallGraph} (hsorted : calls.callees.Sorted)
    (files : List ExtractedFile) (more : List (String × String))
    {entryPoints others : List EntryPoint} (hothers : entryPoints ⊆ others) (marker : String) :
    (deadIds files (calls.addCalls more) others marker).Sublist
    (deadIds files calls entryPoints marker) := by
  refine (List.monotone_filter_right _ ?_).map _
  intro p hp
  exact decide_eq_true ((of_decide_eq_true hp).of_more hsorted hothers)

theorem pairwise_mergeSort_le (ids : List String) : ids.mergeSort.Pairwise (· ≤ ·) := by
  have hsorted : ids.mergeSort.Pairwise fun a b => decide (a ≤ b) = true :=
    List.pairwise_mergeSort (by simpa using fun a b c => String.le_trans)
      (by simpa using fun a b => String.le_total a b) ids
  exact hsorted.imp of_decide_eq_true

theorem mergeSort_sublist {ids others : List String} (h : ids.Sublist others) :
    ids.mergeSort.Sublist others.mergeSort := by
  have : Std.Antisymm (α := String) (· ≤ ·) := ⟨fun a b => String.le_antisymm⟩
  have hids : ids.mergeSort.Subperm others := (List.mergeSort_perm ids _).subperm.trans h.subperm
  have hothers : others.Subperm others.mergeSort := (List.mergeSort_perm others _).symm.subperm
  exact List.sublist_of_subperm_of_pairwise (hids.trans hothers) (pairwise_mergeSort_le ids)
    (pairwise_mergeSort_le others)

/-- Within one file the id of a function tells its name. -/
theorem name_eq_of_idOf_eq {path name other : String}
    (h : Definition.idOf path name = Definition.idOf path other) :
    name = other := by
  simpa [Definition.idOf, ← String.toList_inj] using h

/-- What a report of dead functions says of files with these calls. -/
structure DeadReport (files : List ExtractedFile) (calls : CallGraph)
    (entryPoints : List EntryPoint) (marker : String) (dead : List String) : Prop where
  sorted : dead.Pairwise (· ≤ ·)
  perm : dead.Perm (deadIds files calls entryPoints marker)
  not_called : ∀ id ∈ dead, ∀ e ∈ calls.callees, id ∉ e.2
  /-- All that is reported is accounted for by functions that are no entry points. -/
  no_entryPoint : dead.Subperm
    (((declaredFunctions files).filter (¬·.2.IsEntryPoint entryPoints)).map fun p =>
      Definition.idOf p.1 p.2.name)
  /-- The id of an entry point can only be reported for a function of another file with that id. -/
  entryPoint_id : ∀ p ∈ declaredFunctions files, p.2.IsEntryPoint entryPoints →
    Definition.idOf p.1 p.2.name ∈ dead →
      ∃ q ∈ declaredFunctions files, q.1 ≠ p.1 ∧
      Definition.idOf q.1 q.2.name = Definition.idOf p.1 p.2.name
  antitone : ∀ (more : List (String × String)) (others : List EntryPoint), entryPoints ⊆ others →
    (deadFunctions files (calls.addCalls more) others marker).Sublist dead

theorem deadFunctions_report (registry : Registry) (files : List ExtractedFile)
    (hpaths : (files.map ExtractedFile.path).Nodup) (entryPoints : List EntryPoint)
    (marker : String) :
    DeadReport files (CallGraph.ofFiles registry files) entryPoints marker
      (deadFunctions files (CallGraph.ofFiles registry files) entryPoints marker) := by
  have htable := CallGraph.table_ofFiles registry files
  have hsorted := (CallGraph.sound_ofFiles registry files).sorted
  rw [deadFunctions_eq hpaths htable]
  refine ⟨pairwise_mergeSort_le _, List.mergeSort_perm _ _, ?_, ?_, ?_, ?_⟩
  · intro id hid
    obtain ⟨p, -, hdead, rfl⟩ := mem_deadIds.1 (List.mem_mergeSort.1 hid)
    exact hdead.1
  · refine (List.mergeSort_perm _ _).subperm.trans (List.Sublist.subperm ?_)
    refine (List.monotone_filter_right _ ?_).map _
    intro p hp
    exact decide_eq_true fun hentry => (of_decide_eq_true hp).2 (.inl hentry)
  · rintro ⟨path, d⟩ - hentry hid
    obtain ⟨⟨other, c⟩, hq, hdead, heq⟩ := mem_deadIds.1 (List.mem_mergeSort.1 hid)
    refine ⟨(other, c), hq, ?_, heq⟩
    rintro rfl
    have hname : c.name = d.name := name_eq_of_idOf_eq heq
    refine hdead.2 (.inl ?_)
    rwa [Declaration.IsEntryPoint, Declaration.simpleName, hname]
  · intro more others hothers
    rw [deadFunctions_eq hpaths ((CallGraph.table_addCalls _ more).trans htable)]
    exact mergeSort_sublist (deadIds_sublist hsorted files more hothers marker)

/-- Of two methods in two files one is an entry point, and the other one is dead. -/
theorem deadFunctions_report_two_files :
    let file (path name : String) : ExtractedFile :=
      { source := ⟨path, some "python", [], "", false⟩
        extraction := ⟨[{ (default : Declaration) with name, scope := .type }], default⟩
        patternVersion := 0
        fromCache := false }
    let files := [file "a.py" "Shape.area", file "b.py" "Shape.main"]
    let entryPoints := [EntryPoint.new .mainFunction "main" "b.py" 1]
    (files.map ExtractedFile.path).Nodup ∧
      deadIds files (CallGraph.ofFiles .empty files) entryPoints "test" = ["a.py::Shape.area"] ∧
      DeadReport files (CallGraph.ofFiles .empty files) entryPoints "test"
        (deadFunctions files (CallGraph.ofFiles .empty files) entryPoints "test") := by
  intro file files entryPoints
  have hpaths : (files.map ExtractedFile.path).Nodup := by decide
  exact ⟨hpaths, by decide +kernel, deadFunctions_report .empty files hpaths entryPoints "test"⟩

end CodeSurvey
