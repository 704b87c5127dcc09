import CodeSurvey.Cache.Codec
import CodeSurvey.Host
import CodeSurvey.Scan

/-!
# Surveys

A scan of a folder of a host, with the store in a file. A store that cannot be read or written costs
a warning and nothing else.
-/
namespace CodeSurvey

/-- Why there is no report. -/
inductive SurveyError where
  | unreadableRoot (root : String) (fault : DiskFault)
  | rootNotFolder (root : String)
  | noWorkers (reason : String)
  deriving DecidableEq, Repr

namespace SurveyError

def message : SurveyError → String
  | .unreadableRoot root fault =>
    "cannot enumerate source tree at " ++ root ++ ": " ++ fault.message
  | .rootNotFolder root => "cannot enumerate source tree at " ++ root ++ ": not a directory"
  | .noWorkers reason => "failed to build extraction worker pool: " ++ reason

end SurveyError

namespace Survey

variable {m : Type → Type} [Monad m]

/-- The text of a file that holds UTF-8. -/
def readText (host : Host m) (path : String) : m (Except DiskFault String) := do
  match ← host.read path with
  | .error fault => return .error fault
  | .ok bytes =>
    match Text.Utf8.decode? bytes.toList with
    | some cs => return .ok (String.ofList cs)
    | none => return .error .invalidText

/-- A document in a file. -/
def readDocument {α : Type} (host : Host m) (path : String) (parse : String → Option α) :
    m (Except DocumentFault α) := do
  match ← readText host path with
  | .error fault => return .error (.inaccessible path fault)
  | .ok text =>
    match parse text with
    | some a => return .ok a
    | none => return .error (.malformed path)

/-- The store in a file; without the file it is empty. -/
def loadStore (host : Host m) (now path : String) : m (Cache.Store × List Warning) := do
  match ← readDocument host path (Cache.Store.parse? now) with
  | .ok loaded => return loaded
  | .error (.inaccessible _ .missing) => return (.empty now, [])
  | .error fault => return (.empty now, [.storeUnavailable fault])

/-- The place of a file while it is being written: beside the file, under its name with an
ending. -/
def temporaryPath (path : String) : String :=
  match TreePath.fileName? path with
  | some name => TreePath.join (TreePath.parent path) (name ++ ".tmp")
  | none => TreePath.join path (Config.cacheFileName ++ ".tmp")

/-- Writes the store beside its file and then puts it in the place of the file. -/
def saveStore (host : Host m) (path : String) (store : Cache.Store) : m (List Warning) := do
  let temporary := temporaryPath path
  match ← host.write temporary store.print.toUTF8 with
  | .error fault => return [.storeUnavailable (.inaccessible temporary fault)]
  | .ok () =>
    match ← host.rename temporary path with
    | .error fault => return [.storeUnavailable (.inaccessible path fault)]
    | .ok () => return []

/-- Runs a phase and takes its time. -/
def timed (host : Host m) {α : Type} (phase : Phase) (f : Unit → α) :
    StateT (List (Phase × Float)) m α := do
  let start ← host.clock
  let a ← host.compute f
  let stop ← host.clock
  modify (· ++ [(phase, stop - start)])
  return a

/-- The entries of the folder at a root. -/
def rootEntries (root : String) : Except DiskFault FileTree →
    Except SurveyError (List (FileName × FileTree))
  | .error fault | .ok (.closed fault) => .error (.unreadableRoot root fault)
  | .ok (.folder entries) => .ok entries
  | .ok _ => .error (.rootNotFolder root)

/-- Scans the root of the configuration with a store, and gives the store that is left. Where there
is no folder to list or no worker starts, the store stays as it was. -/
def scanRoot (host : Host m) (now : String) (registry : Registry) (config : Config)
    (workspaces : Option WorkspaceTable) (store : Cache.Store) :
    m (Except SurveyError (Report × List (Phase × Float)) × Cache.Store) := do
  match rootEntries config.root (← host.tree config.excludeNames.contains config.root) with
  | .error e => return (.error e, store)
  | .ok entries =>
    match ← host.startWorkers config.jobs with
    | .error reason => return (.error (.noWorkers reason), store)
    | .ok () =>
      let ((report, store), timings) ←
        (Scan.runPhases (timed host) now registry config entries workspaces store).run []
      return (.ok (report, timings), store)

/-- Surveys the root of the configuration with the built-in languages. -/
def run (host : Host m) (config : Config) (cachePath : Option String)
    (workspaces : Option WorkspaceTable) : m (Except SurveyError (Report × Stamp)) := do
  let now ← host.now
  let (store, loadWarnings) ← match cachePath with
    | some path => loadStore host now path
    | none => pure (.empty now, [])
  match ← scanRoot host now .builtin config workspaces store with
  | (.error error, _) => return .error error
  | (.ok (report, timings), store) =>
    let saveWarnings ← match cachePath with
      | some path => saveStore host path store
      | none => pure []
    return .ok ({ report with warnings := loadWarnings ++ saveWarnings ++ report.warnings },
      { generatedAt := now, root := config.root, timings })

end Survey

end CodeSurvey
