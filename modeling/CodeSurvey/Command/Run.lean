import CodeSurvey.Command.Options
import CodeSurvey.Command.Summary
import CodeSurvey.Survey

/-!
# Running a command

A command line is run on a host. What it prints and how it ends is its outcome.
-/
namespace CodeSurvey.Command

/-- Why a command ends early. -/
inductive Failure where
  | invalidConfig (fault : DocumentFault)
  | invalidWorkspaces (fault : DocumentFault)
  | scanFailed (error : SurveyError)
  | outputNotWritten (fault : DocumentFault)
  deriving DecidableEq, Repr

namespace Failure

def message : Failure → String
  | .invalidConfig fault => "Invalid config: " ++ fault.message
  | .invalidWorkspaces fault => "Invalid workspace table: " ++ fault.message
  | .scanFailed error => "Scan failed: " ++ error.message
  | .outputNotWritten fault => "Error writing output: " ++ fault.message

end Failure

inductive Ending where
  | success
  | failure (failure : Failure)
  | usage (error : UsageError)
  deriving DecidableEq, Repr

structure Outcome where
  /-- The lines of the standard output. -/
  lines : List String
  ending : Ending
  deriving DecidableEq, Repr

namespace Outcome

def exitCode (o : Outcome) : Nat :=
  match o.ending with
  | .success => 0
  | .failure _ => 1
  | .usage _ => 2

/-- What goes to the standard error. -/
def errorText? (o : Outcome) : Option String :=
  match o.ending with
  | .success => none
  | .failure f => some f.message
  | .usage e => some ("error: " ++ e.message)

end Outcome

def versionLine : String :=
  "codeatlas 1.0.0"

def helpLines : List String :=
  ["codeatlas - Structural maps of multi-language source trees", "",
    "Usage: codeatlas scan [OPTIONS] <PATH>", "",
    "Options:",
    "  -o, --output <OUTPUT>        Output JSON file path",
    "  -j, --jobs <JOBS>            Extraction worker count (0 = one per core)",
    "      --max-file-size <BYTES>  Skip files larger than this many bytes (0 = unlimited)",
    "      --max-lines <LINES>      Only analyse the first lines of each file (0 = unlimited)",
    "      --cache <CACHE>          Cache store location",
    "      --no-cache               Run without reading or writing a cache store",
    "      --workspaces <FILE>      Workspace dependency table",
    "      --config <CONFIG>        JSON scan configuration; flags override its values",
    "      --exclude <NAME>         Additional file or directory names to skip",
    "      --verbose                Show per-phase timing breakdown",
    "      --quiet                  Suppress all output except errors",
    "  -h, --help                   Print help",
    "  -V, --version                Print version"]

variable {m : Type → Type} [Monad m]

/-- Reads a document that the options may name. -/
def readOptional {α : Type} (host : Host m) (path : Option String) (parse : String → Option α) :
    m (Except DocumentFault (Option α)) := do
  match path with
  | none => return .ok none
  | some path => return (← Survey.readDocument host path parse).map some

/-- The configuration of a file, with what the options say in its place. -/
def applyOptions (config : Config) (root : String) (o : Options) : Config :=
  { config with
    root
    jobs := o.jobs.getD config.jobs
    maxFileSize := o.maxFileSize.getD config.maxFileSize
    maxLines := o.maxLines.getD config.maxLines
    excludeNames := config.excludeNames ++ o.exclude }

/-- Writes a report, in folders that are made for it. -/
def writeReport (host : Host m) (path : String) (report : Report) (stamp : Stamp) :
    m (Except DocumentFault Unit) := do
  let folder := TreePath.parent path
  let made ← if folder = "" then pure (.ok ()) else host.makeFolders folder
  match made with
  | .error fault => return .error (.inaccessible folder fault)
  | .ok () =>
    match ← host.write path (report.print stamp).toUTF8 with
    | .error fault => return .error (.inaccessible path fault)
    | .ok () => return .ok ()

/-- Surveys the tree and writes the report. -/
def survey (host : Host m) (config : Config) (workspaces : Option WorkspaceTable) (o : Options) :
    m Outcome := do
  let name := TreePath.fileName? config.root
  let output := o.output.getD (name.getD "repo" ++ ".codeatlas.json")
  let cachePath :=
    if o.noCache then none else some (o.cache.getD (TreePath.join config.root Config.cacheFileName))
  let start ← host.clock
  match ← Survey.run host config cachePath workspaces with
  | .error error => return ⟨[], .failure (.scanFailed error)⟩
  | .ok (report, stamp) =>
    let stop ← host.clock
    let lines :=
      if o.quiet then [] else summary (name.getD "") report stamp (stop - start) o.verbose
    match ← writeReport host output report stamp with
    | .error fault => return ⟨lines, .failure (.outputNotWritten fault)⟩
    | .ok () =>
      let written := if o.quiet then [] else ["", "  Output written to: " ++ output]
      return ⟨lines ++ written, .success⟩

/-- Runs a scan: first the configuration is read, then the table of workspaces. -/
def runScan (host : Host m) (path : String) (o : Options) : m Outcome := do
  let root := (← host.canonical? path).getD path
  match ← readOptional host o.config Config.parse? with
  | .error fault => return ⟨[], .failure (.invalidConfig fault)⟩
  | .ok config =>
    match ← readOptional host o.workspaces WorkspaceTable.parse? with
    | .error fault => return ⟨[], .failure (.invalidWorkspaces fault)⟩
    | .ok workspaces =>
      survey host (applyOptions (config.getD .default) root o) workspaces o

/-- Runs a command line. -/
def run (host : Host m) (arguments : List String) : m Outcome := do
  match parse arguments with
  | .ok (path, o) => runScan host path o
  | .error .help => return ⟨helpLines, .success⟩
  | .error .version => return ⟨[versionLine], .success⟩
  | .error (.wrong error) => return ⟨[], .usage error⟩

end CodeSurvey.Command
