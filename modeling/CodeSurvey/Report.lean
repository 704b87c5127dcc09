import CodeSurvey.Complexity
import CodeSurvey.DeadCode
import CodeSurvey.Import.Graph
import CodeSurvey.Json.Printer
import CodeSurvey.Phase
import CodeSurvey.Warning
import CodeSurvey.Workspace

/-!
# Reports

The result of a survey and its written form.
-/
namespace CodeSurvey

structure Report where
  files : List ExtractedFile
  /-- Files that were too large. -/
  skipped : Nat
  imports : Import.Resolution
  importCycles : List (List String)
  calls : CallGraph
  callCycles : List (List String)
  dead : List String
  complexity : Complexity.Report
  workspaces : Option WorkspaceReport
  warnings : List Warning

/-- When and where a survey was made, and how long its phases took. -/
structure Stamp where
  generatedAt : String
  root : String
  /-- In seconds, in the order in which the phases ran. -/
  timings : List (Phase × Float)

namespace ExtractedFile

/-- The record of a file; what is empty or false is left out at its end. -/
def toJson (f : ExtractedFile) : Json :=
  let fileMeta := f.extraction.fileMeta
  .obj <| [("path", .str f.path), ("language", .str fileMeta.language),
      ("contentHash", .str f.source.contentHash)] ++
    Json.member? "purpose" .str fileMeta.purpose ++
    [("imports", fileMeta.imports.toJson),
      ("functions", .arr (f.functions.map Declaration.toJson))] ++
    (if fileMeta.entryPoints.isEmpty then []
      else [("entryPoints", .arr (fileMeta.entryPoints.map EntryPoint.toJson))]) ++
    (if f.source.wasTruncated then [("wasTruncated", .bool true)] else [])

end ExtractedFile

namespace Report

def version : String :=
  "1.0"

def cacheHits (r : Report) : Nat :=
  (r.files.filter (·.fromCache)).length

def cacheMisses (r : Report) : Nat :=
  (r.files.filter (!·.fromCache)).length

def entryPoints (r : Report) : List EntryPoint :=
  r.files.flatMap fun f => f.extraction.fileMeta.entryPoints

def callGraphJson (r : Report) : Json :=
  .obj [("functions", .ofTable .strings r.calls.callees),
    ("circularCalls", .arr (r.callCycles.map .strings)),
    ("deadFunctions", .strings r.dead),
    ("stats", .obj [("totalFunctions", .ofNat r.calls.callees.length),
      ("totalEdges", .ofNat r.calls.edgeCount),
      ("circularCount", .ofNat r.callCycles.length),
      ("deadCount", .ofNat r.dead.length)])]

def statsJson (r : Report) : Json :=
  .obj [("files", .ofNat r.files.length), ("functions", .ofNat r.calls.table.size),
    ("importEdges", .ofNat r.imports.resolved.length), ("callEdges", .ofNat r.calls.edgeCount),
    ("cacheHits", .ofNat r.cacheHits), ("cacheMisses", .ofNat r.cacheMisses),
    ("skipped", .ofNat r.skipped)]

def toJson (stamp : Stamp) (r : Report) : Json :=
  .obj <| [("version", .str version), ("generatedAt", .str stamp.generatedAt),
      ("root", .str stamp.root),
      ("files", .arr (r.files.map ExtractedFile.toJson)),
      ("imports", .arr (r.imports.resolved.map Import.Edge.toJson)),
      ("unresolvedImports", .arr (r.imports.unresolved.map Import.Unresolved.toJson)),
      ("circularImports", .arr (r.importCycles.map .strings)),
      ("callGraph", r.callGraphJson),
      ("complexity", r.complexity.toJson),
      ("entryPoints", .arr (r.entryPoints.map EntryPoint.toJson))] ++
    Json.member? "workspaces" WorkspaceReport.toJson r.workspaces ++
    [("warnings", .arr (r.warnings.map Warning.toJson)),
      ("stats", r.statsJson),
      ("phaseTimings", .ofTable .real
        (Table.ofList (stamp.timings.map fun (phase, seconds) => (phase.name, seconds))))]

/-- The text of a report. -/
def print (stamp : Stamp) (r : Report) : String :=
  (r.toJson stamp).pretty

end Report

end CodeSurvey
