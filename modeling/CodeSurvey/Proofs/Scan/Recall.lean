import CodeSurvey.Proofs.Table
import CodeSurvey.Scan

/-!
# Scans with a store

A scan with a store is a scan without one in which some extractions are exchanged for those of the
store. Nothing but the extractions and their marks is touched.
-/
namespace CodeSurvey

/-! ### Reports without marks -/

/-- The file without the mark of where its extraction comes from. -/
def ExtractedFile.unmarked (f : ExtractedFile) : ExtractedFile :=
  { f with fromCache := false }

def Report.unmarked (r : Report) : Report :=
  { r with files := r.files.map ExtractedFile.unmarked }

theorem Import.Resolution.ofFiles_unmarked (registry : Registry) (present : String → Bool)
    (files : List ExtractedFile) :
    ofFiles registry present (files.map ExtractedFile.unmarked) =
      ofFiles registry present files := by
  rw [ofFiles, List.foldl_map]
  rfl

theorem CallGraph.ofFiles_unmarked (registry : Registry) (files : List ExtractedFile) :
    ofFiles registry (files.map ExtractedFile.unmarked) = ofFiles registry files := by
  have hids : ∀ table : SymbolTable, ofTable table (files.map ExtractedFile.unmarked) =
      ofTable table files := by
    intro table
    rw [ofTable, List.flatMap_map]
    rfl
  rw [ofFiles, List.foldl_map, List.foldl_map, hids]
  rfl

theorem deadFunctions_unmarked (files : List ExtractedFile) (calls : CallGraph)
    (entryPoints : List EntryPoint) (marker : String) :
    deadFunctions (files.map ExtractedFile.unmarked) calls entryPoints marker =
      deadFunctions files calls entryPoints marker := by
  rw [deadFunctions, suspects, List.flatMap_map]
  rfl

theorem Complexity.Report.ofFiles_unmarked (registry : Registry) (files : List ExtractedFile) :
    ofFiles registry (files.map ExtractedFile.unmarked) = ofFiles registry files := by
  rw [ofFiles, List.flatMap_map]
  rfl

namespace Scan

/-- The extracted files without marks. -/
def Extracted.unmarked (x : Extracted) : Extracted :=
  { x with files := x.files.map ExtractedFile.unmarked }

/-- The paths that are listed. -/
def livePaths (listing : FileTree.Listing) : Std.HashSet String :=
  Std.HashSet.ofList (listing.files.map FoundFile.path)

/-- The report on what was extracted from a listing. -/
def report (registry : Registry) (config : Config) (listing : FileTree.Listing)
    (workspaces : Option WorkspaceTable) (x : Extracted) : Report :=
  let live (path : String) : Bool := (livePaths listing).contains path
  let imports := Import.Resolution.ofFiles registry live x.files
  let calls := CallGraph.ofFiles registry x.files
  let entryPoints := x.files.flatMap fun f => f.extraction.fileMeta.entryPoints
  { files := x.files, skipped := x.skipped, imports, importCycles := imports.circular, calls
    callCycles := calls.graph.cycles
    dead := deadFunctions x.files calls entryPoints config.testMarker
    complexity := Complexity.Report.ofFiles registry x.files
    workspaces := workspaces.bind WorkspaceTable.report?
    warnings := listing.warnings ++ x.warnings }

theorem run_eq (now : String) (registry : Registry) (config : Config)
    (entries : List (FileName × FileTree)) (workspaces : Option WorkspaceTable)
    (store : Cache.Store) :
    run now registry config entries workspaces store =
      let listing := FileTree.listing config.root config.excludeNames entries
      let x := extractFiles config registry store listing.files
      (report registry config listing workspaces x,
        updateStore now (livePaths listing).contains x.files store) := by
  cases workspaces <;> rfl

theorem report_unmarked (registry : Registry) (config : Config) (listing : FileTree.Listing)
    (workspaces : Option WorkspaceTable) (x : Extracted) :
    (report registry config listing workspaces x).unmarked =
      report registry config listing workspaces x.unmarked := by
  have hpoints : (x.files.map ExtractedFile.unmarked).flatMap
      (fun f => f.extraction.fileMeta.entryPoints) =
      x.files.flatMap fun f => f.extraction.fileMeta.entryPoints := by
    rw [List.flatMap_map]
    rfl
  simp only [report, Report.unmarked, Extracted.unmarked, Import.Resolution.ofFiles_unmarked,
    CallGraph.ofFiles_unmarked, deadFunctions_unmarked, Complexity.Report.ofFiles_unmarked, hpoints]

/-! ### Fresh files -/

/-- The source of a file within the line limit. -/
def source (maxLines : Nat) (handler : Handler) (path : String) (bytes : ByteArray) : SourceFile :=
  let limited := limitLines maxLines (Text.Utf8.decode bytes.toList)
  { path, language := handler.languageName?, content := limited.1
    contentHash := Cache.contentHash bytes.toList, wasTruncated := limited.2 }

/-- How a file looks to a store. -/
def fingerprint (handler : Handler) (bytes : ByteArray) : Cache.Fingerprint :=
  ⟨Cache.contentHash bytes.toList, Text.Utf8.decode bytes.toList, handler.patternVersion⟩

/-- A file as it is extracted anew. -/
def fresh (maxLines : Nat) (handler : Handler) (path : String) (bytes : ByteArray) :
    ExtractedFile :=
  let source := source maxLines handler path bytes
  ⟨source, handler.extract source, handler.patternVersion, false⟩

def isOversized (config : Config) (found : FoundFile) : Bool :=
  0 < config.maxFileSize && config.maxFileSize < found.size

/-- A handler reads the bytes of a file: the file is not too large, and its bytes can be had. -/
structure Reads (config : Config) (registry : Registry) (found : FoundFile) (handler : Handler)
    (bytes : ByteArray) : Prop where
  handler : Handler.ofPath? registry found.path = some handler
  size : isOversized config found = false
  content : found.content = .ok bytes

/-- The file that a scan without a store extracts, if its reading does not break down. -/
def freshFile? (config : Config) (registry : Registry) (found : FoundFile) :
    Option ExtractedFile :=
  (Handler.ofPath? registry found.path).bind fun handler =>
    if isOversized config found then none
    else found.content.toOption.map (fresh config.maxLines handler found.path)

def freshFiles (config : Config) (registry : Registry) (found : List FoundFile) :
    List ExtractedFile :=
  found.filterMap (freshFile? config registry)

theorem freshFile?_eq_some_iff {config : Config} {registry : Registry} {g : FoundFile}
    {f : ExtractedFile} : freshFile? config registry g = some f ↔
      ∃ handler bytes, Reads config registry g handler bytes ∧
        fresh config.maxLines handler g.path bytes = f := by
  constructor
  · intro hf
    obtain ⟨handler, hh, hf⟩ := Option.bind_eq_some_iff.1 hf
    by_cases hsize : isOversized config g = true
    · rw [if_pos hsize] at hf
      cases hf
    · rw [if_neg hsize] at hf
      cases hcontent : g.content with
      | error fault =>
        rw [hcontent] at hf
        cases hf
      | ok bytes =>
        rw [hcontent] at hf
        exact ⟨handler, bytes, ⟨hh, Bool.not_eq_true _ ▸ hsize, hcontent⟩, Option.some.inj hf⟩
  · rintro ⟨handler, bytes, ⟨hh, hsize, hcontent⟩, rfl⟩
    rw [freshFile?, hh, Option.bind_some, hsize, hcontent]
    rfl

theorem mem_freshFiles {config : Config} {registry : Registry} {found : List FoundFile}
    {f : ExtractedFile} : f ∈ freshFiles config registry found ↔
      ∃ g ∈ found, ∃ handler bytes, Reads config registry g handler bytes ∧
        fresh config.maxLines handler g.path bytes = f := by
  simp only [freshFiles, List.mem_filterMap, freshFile?_eq_some_iff]

end Scan

/-- No reading breaks down. -/
def Registry.IsSteady (registry : Registry) : Prop :=
  ∀ path text, registry.breaksOn path text = false

theorem Registry.isSteady_builtin : builtin.IsSteady :=
  fun _ _ => rfl

/-! ### Recalled extractions -/

namespace Cache.Store

/-- Every entry is of the present kind. -/
def IsModern (s : Store) : Prop :=
  ∀ path e, s.get? path = some e → e.hashKind = .blake3 ∧ e.patternVersion.isSome

/-- What the store knows of a file with the same content and pattern version. -/
def known? (s : Store) (f : ExtractedFile) : Option Extraction :=
  ((s.get? f.path).filter fun e =>
    e.contentHash == f.source.contentHash && e.patternVersion == some f.patternVersion).map
      Entry.extraction

/-- The file with the extraction of the store, if that has one. -/
def recalled (s : Store) (f : ExtractedFile) : ExtractedFile :=
  { f with extraction := (s.known? f).getD f.extraction, fromCache := (s.known? f).isSome }

theorem lookup?_eq_known? {s : Store} (h : s.IsModern) (f : ExtractedFile) (text : List Char) :
    s.lookup? f.path ⟨f.source.contentHash, text, f.patternVersion⟩ = s.known? f := by
  rw [lookup?, known?]
  cases he : s.get? f.path with
  | none => rfl
  | some e =>
    obtain ⟨hkind, hversion⟩ := h f.path e he
    obtain ⟨v, hv⟩ := Option.isSome_iff_exists.1 hversion
    have hcurrent : e.isCurrent ⟨f.source.contentHash, text, f.patternVersion⟩ =
        (e.contentHash == f.source.contentHash && e.patternVersion == some f.patternVersion) := by
      rw [Entry.isCurrent, Entry.hashMatches, hkind, hv, Bool.and_comm]
      rfl
    rw [Option.filter_some, Option.filter_some, hcurrent]

end Cache.Store

namespace Scan

namespace FileOutcome

def file? : FileOutcome → Option ExtractedFile
  | .extracted file _ => some file
  | _ => none

def warnings : FileOutcome → List Warning
  | .extracted _ warning => warning.toList
  | .skipped warning => [warning]
  | .ignored => []

def isSkipped : FileOutcome → Bool
  | .skipped _ => true
  | _ => false

end FileOutcome

theorem foldl_add (outcomes : List FileOutcome) (x : Extracted) :
    outcomes.foldl Extracted.add x =
      ⟨x.files ++ outcomes.filterMap FileOutcome.file?,
        x.warnings ++ outcomes.flatMap FileOutcome.warnings,
        x.skipped + outcomes.countP FileOutcome.isSkipped⟩ := by
  induction outcomes generalizing x with
  | nil => simp
  | cons o outcomes ih =>
    rw [List.foldl_cons, ih, List.filterMap_cons, List.flatMap_cons, List.countP_cons]
    cases o with
    | extracted file warning =>
      simp [Extracted.add, FileOutcome.file?, FileOutcome.warnings, FileOutcome.isSkipped]
    | skipped warning =>
      simp [Extracted.add, FileOutcome.file?, FileOutcome.warnings, FileOutcome.isSkipped]
      omega
    | ignored =>
      simp [Extracted.add, FileOutcome.file?, FileOutcome.warnings, FileOutcome.isSkipped]

theorem files_eq_filterMap (config : Config) (registry : Registry) (store : Cache.Store)
    (found : List FoundFile) :
    (extractFiles config registry store found).files =
      found.filterMap fun g => (processFile config registry store g).file? := by
  rw [extractFiles, foldl_add, List.nil_append, List.filterMap_map]
  rfl

/-- Of the paths that are found, those of the files that are made of them are some. -/
theorem paths_filterMap_sublist {file? : FoundFile → Option ExtractedFile}
    (h : ∀ g f, file? g = some f → f.path = g.path) (found : List FoundFile) :
    ((found.filterMap file?).map ExtractedFile.path).Sublist (found.map FoundFile.path) := by
  induction found with
  | nil => exact .slnil
  | cons g found ih =>
    rw [List.filterMap_cons, List.map_cons]
    cases hfile : file? g with
    | none => exact ih.cons g.path
    | some f =>
      rw [List.map_cons, h g f hfile]
      exact ih.cons_cons g.path

/-- What becomes of bytes whose extraction may be taken from a store. -/
def outcome (config : Config) (registry : Registry) (handler : Handler) (path : String)
    (bytes : ByteArray) (hit : Option Extraction) : FileOutcome :=
  let f := fresh config.maxLines handler path bytes
  if hit.isNone && registry.breaksOn path f.source.content then .skipped (.unparsable path)
  else
    .extracted { f with extraction := hit.getD f.extraction, fromCache := hit.isSome }
      (if f.source.wasTruncated then some (.truncated path config.maxLines) else none)

/-- What becomes of a file by what becomes of its bytes. -/
def outcomeOf (config : Config) (registry : Registry) (g : FoundFile)
    (ofBytes : Handler → ByteArray → FileOutcome) : FileOutcome :=
  match Handler.ofPath? registry g.path with
  | none => .ignored
  | some handler =>
    if isOversized config g then .skipped (.oversized g.path g.size config.maxFileSize)
    else
      match g.content with
      | .error fault => .skipped (.unreadable g.path fault)
      | .ok bytes => ofBytes handler bytes

theorem processFile_eq_lookup (config : Config) (registry : Registry) (store : Cache.Store)
    (g : FoundFile) : processFile config registry store g =
      outcomeOf config registry g fun handler bytes => outcome config registry handler g.path bytes
        (store.lookup? g.path (fingerprint handler bytes)) := by
  rw [outcomeOf, processFile]
  cases Handler.ofPath? registry g.path with
  | none => rfl
  | some handler =>
    refine ite_congr rfl (fun _ => rfl) fun _ => ?_
    cases g.content with
    | error fault => rfl
    | ok bytes =>
      dsimp only [fingerprint]
      cases store.lookup? g.path
        ⟨Cache.contentHash bytes.toList, Text.Utf8.decode bytes.toList, handler.patternVersion⟩ with
      | none => rfl
      | some extraction => rfl

theorem processFile_eq (config : Config) (registry : Registry) {store : Cache.Store}
    (h : store.IsModern) (g : FoundFile) : processFile config registry store g =
      outcomeOf config registry g fun handler bytes => outcome config registry handler g.path bytes
        (store.known? (fresh config.maxLines handler g.path bytes)) := by
  rw [processFile_eq_lookup]
  refine congrArg (outcomeOf config registry g) (funext fun handler => funext fun bytes => ?_)
  rw [← Cache.Store.lookup?_eq_known? h _ (Text.Utf8.decode bytes.toList)]
  rfl

section Steady

variable (config : Config) {registry : Registry} (hsteady : registry.IsSteady)
  {store : Cache.Store} (h : store.IsModern)
include hsteady

theorem outcome_of_isSteady (handler : Handler) (path : String) (bytes : ByteArray)
    (hit : Option Extraction) :
    outcome config registry handler path bytes hit =
      let f := fresh config.maxLines handler path bytes
      .extracted { f with extraction := hit.getD f.extraction, fromCache := hit.isSome }
        (if f.source.wasTruncated then some (.truncated path config.maxLines) else none) := by
  rw [outcome, hsteady, Bool.and_false]
  rfl

include h

theorem file?_processFile (g : FoundFile) :
    (processFile config registry store g).file? =
      (freshFile? config registry g).map store.recalled := by
  simp only [processFile_eq config registry h, outcome_of_isSteady config hsteady]
  rw [outcomeOf, freshFile?]
  cases Handler.ofPath? registry g.path with
  | none => rfl
  | some handler =>
    cases isOversized config g with
    | true => rfl
    | false => cases g.content <;> rfl

/-- The store has no part in the warnings and in what is skipped. -/
theorem processFile_rest {other : Cache.Store} (hother : other.IsModern) (g : FoundFile) :
    (processFile config registry store g).warnings =
        (processFile config registry other g).warnings ∧
      (processFile config registry store g).isSkipped =
        (processFile config registry other g).isSkipped := by
  simp only [processFile_eq config registry h, processFile_eq config registry hother,
    outcome_of_isSteady config hsteady]
  rw [outcomeOf, outcomeOf]
  cases Handler.ofPath? registry g.path with
  | none => exact ⟨rfl, rfl⟩
  | some handler =>
    cases isOversized config g with
    | true => exact ⟨rfl, rfl⟩
    | false => cases g.content <;> exact ⟨rfl, rfl⟩

end Steady

theorem isModern_empty (now : String) : (Cache.Store.empty now).IsModern := by
  intro path e h
  cases h

section Steady

variable (config : Config) {registry : Registry} (hsteady : registry.IsSteady)
  {store : Cache.Store}
include hsteady

theorem extractFiles_eq (h : store.IsModern) (now : String) (found : List FoundFile) :
    extractFiles config registry store found =
      { extractFiles config registry (.empty now) found with
        files := (freshFiles config registry found).map store.recalled } := by
  have hfile := file?_processFile config hsteady h
  have hrest := processFile_rest config hsteady h (isModern_empty now)
  rw [extractFiles, extractFiles, foldl_add, foldl_add]
  simp only [List.nil_append, Nat.zero_add, Extracted.mk.injEq]
  refine ⟨?_, ?_, ?_⟩
  · rw [List.filterMap_map, freshFiles, List.map_filterMap]
    exact congrArg (List.filterMap · found) (funext hfile)
  · rw [List.flatMap_map, List.flatMap_map]
    exact congrArg List.flatten (List.map_congr_left fun g _ => (hrest g).1)
  · rw [List.countP_map, List.countP_map]
    exact List.countP_congr fun g _ => by
      rw [Function.comp_apply, Function.comp_apply, (hrest g).2]

theorem files_extractFiles (h : store.IsModern) (found : List FoundFile) :
    (extractFiles config registry store found).files =
      (freshFiles config registry found).map store.recalled := by
  rw [extractFiles_eq config hsteady h ""]

theorem files_empty (now : String) (found : List FoundFile) :
    (extractFiles config registry (.empty now) found).files =
      freshFiles config registry found := by
  have hfresh : ∀ f ∈ freshFiles config registry found,
      (Cache.Store.empty now).recalled f = f := by
    intro f hf
    obtain ⟨g, -, handler, bytes, -, rfl⟩ := mem_freshFiles.1 hf
    rfl
  rw [files_extractFiles config hsteady (isModern_empty now)]
  exact (List.map_congr_left hfresh).trans (List.map_id' _)

theorem files_run (now : String) (entries : List (FileName × FileTree))
    (workspaces : Option WorkspaceTable) (h : store.IsModern) :
    (run now registry config entries workspaces store).1.files =
      (freshFiles config registry
        (FileTree.listing config.root config.excludeNames entries).files).map store.recalled := by
  rw [run_eq, ← files_extractFiles config hsteady h]
  rfl

theorem run_empty (now : String) (entries : List (FileName × FileTree))
    (workspaces : Option WorkspaceTable) :
    let listing := FileTree.listing config.root config.excludeNames entries
    let files := freshFiles config registry listing.files
    (run now registry config entries workspaces (.empty now)).1.files = files ∧
      (run now registry config entries workspaces (.empty now)).2 =
        updateStore now (livePaths listing).contains files (.empty now) := by
  simp only [run_eq, ← files_empty config hsteady now, and_true]
  rfl

end Steady

end Scan

end CodeSurvey
