import CodeSurvey.Cache.Store
import CodeSurvey.Config
import CodeSurvey.FileTree.Listing
import CodeSurvey.Report
import Std.Data.HashSet

/-!
# Scans

A scan lists a folder, extracts what its files declare or takes it from a store, and relates the
files to each other. It leaves a store in which every extracted file is up to date.
-/
namespace CodeSurvey

/-- What reads a file. -/
inductive Handler where
  | code (registration : Registration)
  | document (kind : DocumentKind)
  deriving DecidableEq, Repr

namespace Handler

/-- A registered language comes before a document of the same extension. -/
def ofPath? (registry : Registry) (path : String) : Option Handler :=
  ((registry.forPath? path).map .code).or ((DocumentKind.ofPath? path).map .document)

def patternVersion : Handler → Nat
  | .code r => r.capabilities.patternVersion
  | .document _ => DocumentKind.patternVersion

def languageName? : Handler → Option String
  | .code r => some r.capabilities.languageName
  | .document _ => none

def extract (source : SourceFile) : Handler → Extraction
  | .code r =>
    .ofCode r.language r.capabilities source.path source.wasTruncated source.content
  | .document kind => .ofDocument kind source.path source.wasTruncated source.content

end Handler

namespace Scan

/-- The first `n` lines of a text with their ends, and what follows them. -/
def splitLines : Nat → List Char → List Char × List Char
  | 0, cs => ([], cs)
  | _, [] => ([], [])
  | n + 1, c :: cs =>
    let (head, rest) := splitLines (if c == '\n' then n else n + 1) cs
    (c :: head, rest)

/-- The part of a text within the limit, and whether something was cut off. -/
def limitLines (maxLines : Nat) (text : List Char) : List Char × Bool :=
  if maxLines = 0 then (text, false)
  else
    let (head, rest) := splitLines maxLines text
    if rest.isEmpty then (text, false) else (head, true)

inductive FileOutcome where
  | extracted (file : ExtractedFile) (warning : Option Warning)
  | skipped (warning : Warning)
  /-- Nothing reads the file. -/
  | ignored
  deriving DecidableEq, Repr

/-- Extracts one file, or finds in the store what was extracted from it before. -/
def processFile (config : Config) (registry : Registry) (store : Cache.Store) (found : FoundFile) :
    FileOutcome :=
  match Handler.ofPath? registry found.path with
  | none => .ignored
  | some handler =>
    if 0 < config.maxFileSize && config.maxFileSize < found.size then
      .skipped (.oversized found.path found.size config.maxFileSize)
    else
      match found.content with
      | .error fault => .skipped (.unreadable found.path fault)
      | .ok content =>
        let bytes := content.toList
        let hash := Cache.contentHash bytes
        let text := Text.Utf8.decode bytes
        let (content, wasTruncated) := limitLines config.maxLines text
        let source : SourceFile :=
          { path := found.path, language := handler.languageName?, content, contentHash := hash,
            wasTruncated }
        let patternVersion := handler.patternVersion
        let warning :=
          if wasTruncated then some (.truncated found.path config.maxLines) else none
        match store.lookup? found.path ⟨hash, text, patternVersion⟩ with
        | some extraction =>
          .extracted { source, extraction, patternVersion, fromCache := true } warning
        | none =>
          if registry.breaksOn found.path content then .skipped (.unparsable found.path)
          else
            .extracted
              { source, extraction := handler.extract source, patternVersion, fromCache := false }
              warning

structure Extracted where
  files : List ExtractedFile
  warnings : List Warning
  skipped : Nat
  deriving DecidableEq, Repr

namespace Extracted

def add (x : Extracted) : FileOutcome → Extracted
  | .extracted file warning =>
    { x with files := x.files ++ [file], warnings := x.warnings ++ warning.toList }
  | .skipped warning => { x with warnings := x.warnings ++ [warning], skipped := x.skipped + 1 }
  | .ignored => x

end Extracted

def extractFiles (config : Config) (registry : Registry) (store : Cache.Store)
    (found : List FoundFile) : Extracted :=
  (found.map (processFile config registry store)).foldl Extracted.add ⟨[], [], 0⟩

/-- Writes down what is new and what is left of an older store, then drops the files that are
gone. -/
def updateStore (now : String) (live : String → Bool) (files : List ExtractedFile)
    (store : Cache.Store) : Cache.Store :=
  let changed := files.filter fun f => !f.fromCache || store.isLegacy f.path
  let stored := changed.foldl
    (fun s f => s.insert now f.path f.source.contentHash f.patternVersion f.extraction) store
  stored.retain live

/-- Runs all phases through `phase`, which may tell and time them. -/
def runPhases {m : Type → Type} [Monad m] (phase : {α : Type} → Phase → (Unit → α) → m α)
    (now : String) (registry : Registry) (config : Config) (entries : List (FileName × FileTree))
    (workspaces : Option WorkspaceTable) (store : Cache.Store) : m (Report × Cache.Store) := do
  let listing ← phase .listing fun _ => FileTree.listing config.root config.excludeNames entries
  let found := listing.files
  let extracted ← phase .extraction fun _ => extractFiles config registry store found
  let paths := Std.HashSet.ofList (found.map FoundFile.path)
  let live (path : String) : Bool := paths.contains path
  let files := extracted.files
  let store := updateStore now live files store
  let (imports, importCycles) ← phase .imports fun _ =>
    let r := Import.Resolution.ofFiles registry live files
    (r, r.circular)
  let calls ← phase .calls fun _ => CallGraph.ofFiles registry files
  let entryPoints := files.flatMap fun f => f.extraction.fileMeta.entryPoints
  let (dead, callCycles) ← phase .analysis fun _ =>
    (deadFunctions files calls entryPoints config.testMarker, calls.graph.cycles)
  let complexity ← phase .complexity fun _ => Complexity.Report.ofFiles registry files
  let workspaces ← match workspaces with
    | none => pure none
    | some table => phase .workspaces fun _ => table.report?
  return ({ files, skipped := extracted.skipped, imports, importCycles, calls, callCycles, dead,
            complexity, workspaces, warnings := listing.warnings ++ extracted.warnings }, store)

/-- Scans a folder with a store. -/
def run (now : String) (registry : Registry) (config : Config)
    (entries : List (FileName × FileTree)) (workspaces : Option WorkspaceTable)
    (store : Cache.Store) : Report × Cache.Store :=
  Id.run (runPhases (fun _ f => pure (f ())) now registry config entries workspaces store)

end Scan

end CodeSurvey
