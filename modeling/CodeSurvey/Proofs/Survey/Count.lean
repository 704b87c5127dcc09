import CodeSurvey.Proofs.CallGraph
import CodeSurvey.Proofs.Complexity
import CodeSurvey.Proofs.Extraction.Id
import CodeSurvey.Proofs.Scan.Serve
import CodeSurvey.Proofs.Survey.Run

/-!
# Counts of functions

A written report counts the functions of its files in several places. The index of symbols counts
them one by one; the calls and the scores are tables by id, which count a function once for each id.
All counts agree, since no two functions share an id.
-/
namespace CodeSurvey

/-- The value at the end of a path of member names. -/
def Json.at? : List String → Json → Option Json
  | [], j => some j
  | name :: path, j => (j.get? name).bind (at? path)

namespace Report

/-- Wherever a written report counts functions it gives the number of functions in its files, each
of which has an id of its own. -/
structure CountsAgree (files : List ExtractedFile) (written : Json) : Prop where
  id_inj : ∀ p ∈ declaredFunctions files, ∀ q ∈ declaredFunctions files,
    Definition.idOf p.1 p.2.name = Definition.idOf q.1 q.2.name → p = q
  indexed : written.at? ["stats", "functions"] = some (.ofNat (functionCount files))
  called : written.at? ["callGraph", "stats", "totalFunctions"] =
    some (.ofNat (functionCount files))
  callers : ∃ members, written.at? ["callGraph", "functions"] = some (.obj members) ∧
    (members.map Prod.fst).Nodup ∧ members.length = functionCount files
  scored : written.at? ["complexity", "summary", "totalFunctions"] =
    some (.ofNat (functionCount files))
  risks : ∃ low medium high, written.at? ["complexity", "summary", "lowRisk"] = some (.ofNat low) ∧
    written.at? ["complexity", "summary", "mediumRisk"] = some (.ofNat medium) ∧
    written.at? ["complexity", "summary", "highRisk"] = some (.ofNat high) ∧
      low + medium + high = functionCount files
  scores : ∃ scores : Table Complexity,
    written.at? ["complexity", "functions"] = some (.ofTable Complexity.toJson scores) ∧
    scores.keys.Perm (symbolIds files) ∧
    written.at? ["complexity", "summary", "totalComplexity"] =
      some (.ofNat (scores.foldr (fun e n => e.2.complexity + n) 0)) ∧
    ∀ e ∈ scores, e.2.complexity = e.2.branches + 1

theorem at?_toJson (r : Report) (stamp : Stamp) (path : List String) :
    (r.toJson stamp).at? ("callGraph" :: path) = r.callGraphJson.at? path ∧
      (r.toJson stamp).at? ("complexity" :: path) = r.complexity.toJson.at? path ∧
      (r.toJson stamp).at? ("stats" :: path) = r.statsJson.at? path := by
  cases hw : r.workspaces <;> simp [toJson, Json.at?, Json.get?, Json.member?, hw]

/-- Counts that are taken from the same files agree, if the files do not share ids and every
function is scored. -/
theorem countsAgree_toJson {registry : Registry} {r : Report}
    (hcalls : r.calls = .ofFiles registry r.files)
    (hscores : r.complexity = .ofFiles registry r.files) (hids : (symbolIds r.files).Nodup)
    (hread : ∀ f ∈ r.files, f.functions ≠ [] → (registry.forPath? f.path).isSome) (stamp : Stamp) :
    CountsAgree r.files (r.toJson stamp) := by
  have hsound := CallGraph.sound_ofFiles registry r.files
  rw [← hcalls] at hsound
  have hkeys : r.calls.callees.keys.Perm (symbolIds r.files) :=
    (List.perm_ext_iff_of_nodup hsound.sorted.nodup_keys hids).2 hsound.keys
  have hcallees := length_of_keys_perm hkeys
  have hperm := Complexity.Report.keys_ofFiles_perm hids hread
  rw [← hscores] at hperm
  have hfunctions := length_of_keys_perm hperm
  have hsize : r.calls.table.size = functionCount r.files := by
    rw [hcalls, CallGraph.table_ofFiles, SymbolTable.size_ofFiles]
  have hgraph := fun path => (at?_toJson r stamp path).1
  have hcomplexity := fun path => (at?_toJson r stamp path).2.1
  have hstats := fun path => (at?_toJson r stamp path).2.2
  constructor
  case id_inj => exact List.inj_on_of_nodup_map hids
  case indexed =>
    rw [hstats, ← hsize]
    rfl
  case called =>
    rw [hgraph, ← hcallees]
    rfl
  case callers =>
    refine ⟨r.calls.callees.map fun e => (e.1, .strings e.2), ?_, ?_, ?_⟩
    · rw [hgraph]
      rfl
    · rw [List.map_map]
      exact hsound.sorted.nodup_keys
    · rw [List.length_map, hcallees]
  case scored =>
    rw [hcomplexity, ← hfunctions]
    rfl
  case risks =>
    refine ⟨r.complexity.withRisk .low, r.complexity.withRisk .medium, r.complexity.withRisk .high,
      hcomplexity ["summary", "lowRisk"], hcomplexity ["summary", "mediumRisk"],
      hcomplexity ["summary", "highRisk"], ?_⟩
    rw [Complexity.Report.withRisk_add, hfunctions]
  case scores =>
    refine ⟨r.complexity.functions, hcomplexity ["functions"], hperm,
      hcomplexity ["summary", "totalComplexity"], fun e he => ?_⟩
    exact Complexity.Report.complexity_of_mem (hscores ▸ he)

end Report

namespace Scan

variable {config : Config} {registry : Registry} {found : List FoundFile}

theorem isNamed_of_mem_freshFiles {f : ExtractedFile} (hf : f ∈ freshFiles config registry found) :
    f.IsNamed := by
  obtain ⟨g, -, handler, bytes, -, rfl⟩ := mem_freshFiles.1 hf
  cases handler with
  | code r =>
    let s := source config.maxLines (.code r) g.path bytes
    obtain ⟨hnodup, hcolon⟩ := Extraction.names_ofCode r.language r.capabilities s.path
      s.wasTruncated s.content
    exact ⟨hnodup, hcolon⟩
  | document kind => exact ⟨List.nodup_nil, nofun⟩

/-- Only the files of a language have functions. -/
theorem isSome_forPath?_of_functions {f : ExtractedFile} (hf : f ∈ freshFiles config registry found)
    (h : f.functions ≠ []) : (registry.forPath? f.path).isSome := by
  obtain ⟨g, -, handler, bytes, hreads, rfl⟩ := mem_freshFiles.1 hf
  cases handler with
  | code r =>
    rcases Option.or_eq_some_iff.1 hreads.handler with hcode | ⟨-, hdocument⟩
    · obtain ⟨registration, hregistration, -⟩ := Option.map_eq_some_iff.1 hcode
      exact Option.isSome_iff_exists.2 ⟨registration, hregistration⟩
    · obtain ⟨kind, -, hkind⟩ := Option.map_eq_some_iff.1 hdocument
      cases hkind
  | document kind => exact absurd rfl h

theorem countsAgree_run (now : String) {registry : Registry} (hsteady : registry.IsSteady)
    (config : Config) (entries : List (FileName × FileTree)) (workspaces : Option WorkspaceTable)
    (stamp : Stamp)
    (hnodup : ((FileTree.listing config.root config.excludeNames entries).files.map
      FoundFile.path).Nodup) :
    Report.CountsAgree
      (freshFiles config registry (FileTree.listing config.root config.excludeNames entries).files)
      ((run now registry config entries workspaces (.empty now)).1.toJson stamp) := by
  let report := (run now registry config entries workspaces (.empty now)).1
  have hfiles : report.files = _ := (run_empty config hsteady now entries workspaces).1
  have hcalls : report.calls = .ofFiles registry report.files := by
    simp only [report, run_eq]
    rfl
  have hscores : report.complexity = .ofFiles registry report.files := by
    simp only [report, run_eq]
    rfl
  have hids : (symbolIds report.files).Nodup := by
    rw [hfiles]
    exact nodup_symbolIds (hnodup.sublist paths_freshFiles_sublist) fun f =>
      isNamed_of_mem_freshFiles
  have hread : ∀ f ∈ report.files, f.functions ≠ [] → (registry.forPath? f.path).isSome := by
    rw [hfiles]
    exact fun f => isSome_forPath?_of_functions
  rw [← hfiles]
  exact Report.countsAgree_toJson hcalls hscores hids hread stamp

end Scan

namespace Survey

/-- A survey without a store of a folder whose files have different paths counts every function
once, wherever it counts them. -/
theorem run_counts_functions (d : Disk) (now : String) (config : Config)
    (workspaces : Option WorkspaceTable) {place : List FileName}
    {entries : List (FileName × FileTree)}
    (hfind : d.find config.root = .ok (place, .folder entries))
      (hnodup : ((FileTree.listing config.root config.excludeNames entries).files.map
      FoundFile.path).Nodup) :
    ∃ report, (run (Disk.host now) config none workspaces).run d =
        (.ok (report, stamp now config workspaces), d) ∧
      report.files = Scan.freshFiles config .builtin
        (FileTree.listing config.root config.excludeNames entries).files ∧
      Report.CountsAgree report.files (report.toJson (stamp now config workspaces)) := by
  have hfiles := (Scan.run_empty config Registry.isSteady_builtin now entries workspaces).1
  refine ⟨_, run_none_of_folder hfind, hfiles, ?_⟩
  rw [hfiles]
  exact Scan.countsAgree_run now Registry.isSteady_builtin config entries workspaces _ hnodup

/-- A method and two functions of one simple name, one of them in a file whose path looks like the
id of another. -/
theorem run_counts_functions_methods :
    let first : ByteArray := "class A:\n  def f(self):\n    if self: pass\ndef f(): pass".toUTF8
    let second : ByteArray := "def f(): pass".toUTF8
    let entries : List (FileName × FileTree) :=
      [("a.py", .ofBytes first), ("a.py::f.py", .ofBytes second)]
    let config : Config := { Config.default with root := "/src" }
    ((FileTree.listing config.root config.excludeNames entries).files.map FoundFile.path).Nodup ∧
      ∃ report, (run (Disk.host "now") config none none).run (.beside entries none) =
          (.ok (report, stamp "now" config none), .beside entries none) ∧
        symbolIds report.files = ["a.py::A.f", "a.py::f", "a.py::f.py::f"] ∧
        (report.toJson (stamp "now" config none)).at? ["stats", "functions"] = some (.ofNat 3) ∧
        (report.toJson (stamp "now" config none)).at? ["complexity", "summary", "totalFunctions"] =
          some (.ofNat 3) := by
  intro first second entries config
  have hlisting : (FileTree.listing config.root config.excludeNames entries).files =
      [⟨"a.py", first.size, .ok first⟩, ⟨"a.py::f.py", second.size, .ok second⟩] :=
    List.mergeSort_of_pairwise (by decide)
  have hnodup : ((FileTree.listing config.root config.excludeNames entries).files.map
      FoundFile.path).Nodup := by
    rw [hlisting]
    decide
  obtain ⟨report, hrun, hfiles, hcounts⟩ :=
    run_counts_functions (.beside entries none) "now" config none
    (Disk.find_beside entries none) hnodup
  have hids : symbolIds report.files = ["a.py::A.f", "a.py::f", "a.py::f.py::f"] := by
    rw [hfiles, hlisting]
    decide +kernel
  have hcount : functionCount report.files = 3 := by
    rw [← length_symbolIds, hids]
    rfl
  exact ⟨hnodup, report, hrun, hids, hcount ▸ hcounts.indexed, hcount ▸ hcounts.scored⟩

end Survey

end CodeSurvey
