import CodeSurvey.EntryPoint
import CodeSurvey.Json.Printer
import CodeSurvey.Json.Reader
import CodeSurvey.Pattern
import CodeSurvey.Text.LineIndex
import CodeSurvey.TreePath

/-!
# Documents with entry points

Pages, package manifests and workflows hold no functions, but they name what is called from outside.
-/
namespace CodeSurvey

inductive DocumentKind where
  | html
  | packageManifest
  | workflow
  deriving DecidableEq, Repr

namespace DocumentKind

/-- The revision of what is looked for in documents. -/
def patternVersion : Nat := 1

def label : DocumentKind → String
  | .html => "HTML"
  | .packageManifest => "package.json"
  | .workflow => "n8n"

/-- The kind of the document at a path, by its extension and name. -/
def ofPath? (path : String) : Option DocumentKind :=
  match TreePath.fileName? path with
  | none => none
  | some name =>
    let name := Text.lower name.toList
    let extension := Text.lower ((TreePath.extension? path).getD "").toList
    if extension = "html".toList || extension = "htm".toList then some .html
    else if name = "package.json".toList then some .packageManifest
    else if extension = "json".toList &&
        (Text.hasSub "workflow".toList name || Text.hasSub "n8n".toList name) then some .workflow
    else none

end DocumentKind

namespace Document

section Patterns
open Pattern

private def isNoQuote (c : Char) : Bool :=
  c != '"' && c != '\''

/-- A script element with its source. -/
def scriptSource : Pattern :=
  litFolded "<script" ++ blank ++ group "attributes" (run (· != '>')) ++ litFolded "src" ++ gap ++
    one '=' ++ gap ++ quote ++ group "source" (run1 isNoQuote) ++ quote

def scriptTag : Pattern :=
  litFolded "<script" ++ opt (group "attributes" (blank ++ run (· != '>'))) ++ one '>'

def moduleType : Pattern :=
  litFolded "type" ++ gap ++ one '=' ++ gap ++ quote ++ litFolded "module" ++ quote

end Patterns

def sourceEntry (index : Text.LineIndex) (path : String) (m : Pattern.Match) : EntryPoint :=
  let source := m.string "source"
  let kind := if moduleType.occurs (m.text "attributes") then "ES Module: " else "Script: "
  (EntryPoint.new .script source path (index.lineOf m.whole.offset + 1)).withTrigger
    (kind ++ source)

/-- The scripts of a page: first those with a source, then the inline ones, which are numbered. -/
def pageEntries (path : String) (text : List Char) : List EntryPoint :=
  let index := Text.LineIndex.ofText text
  let external := (scriptSource.findAll text).map (sourceEntry index path)
  let tags := (scriptTag.findAll text).filter fun m =>
    !Text.hasSub "src=".toList (Text.lower (m.text "attributes"))
  let inlined := tags.zipIdx.map fun (m, n) =>
    (EntryPoint.new .script ("inline-script-" ++ toString (n + 1)) path
      (index.lineOf m.whole.offset + 1)).withTrigger
      (if moduleType.occurs (m.text "attributes") then "Inline module" else "Inline script")
  external ++ inlined

/-- A text as it is, any other value as JSON. -/
def display : Json → String
  | .str s => s
  | j => j.compact

def packageEntry (kind : EntryKind) (name path field value : String) : EntryPoint :=
  (EntryPoint.new kind name path 1).withTrigger ("package.json " ++ field ++ ": " ++ value)

def mainEntries (path : String) (package : Json) : List EntryPoint :=
  match package.get? "main" with
  | some main => [packageEntry .packageMain (display main) path "main" (display main)]
  | none => []

def binEntries (path : String) (package : Json) : List EntryPoint :=
  match package.get? "bin" with
  | some (.str bin) =>
    let name := ((package.get? "name").bind Json.str?).getD "bin"
    [packageEntry .packageBin name path "bin" bin]
  | some (.obj commands) =>
    commands.map fun (command, target) =>
      packageEntry .packageBin command path "bin" (command ++ " -> " ++ display target)
  | _ => []

def exportEntries (path : String) (package : Json) : List EntryPoint :=
  match package.get? "exports" with
  | some (.str target) => [packageEntry .packageExport "." path "exports" target]
  | some (.obj exported) =>
    exported.map fun (key, _) => packageEntry .packageExport key path "exports" key
  | _ => []

/-- What a package names as its main file, its commands and its exports. -/
def packageEntries (path : String) (package : Json) : List EntryPoint :=
  mainEntries path package ++ binEntries path package ++ exportEntries path package

/-- The text of a member of a member. -/
private def textIn? (node : Json) (outer inner : String) : Option String :=
  ((node.get? outer).bind (·.get? inner)).bind Json.str?

/-- When a scheduled node runs. -/
private def schedule (node : Json) : String :=
  match (node.get? "parameters").bind (·.get? "rule") with
  | some (.obj rule) => (((Json.obj rule).get? "cronExpression").bind Json.str?).getD ""
  | some other => display other
  | none => ""

private def nodeTrigger? (node : Json) (type : String) : Option (EntryKind × String) :=
  let lowered := Text.lower type.toList
  if Text.hasSub "webhook".toList lowered then
    let path := (textIn? node "parameters" "path").getD ""
    let method := (textIn? node "parameters" "httpMethod").getD "GET"
    some (.webhook, "Webhook: " ++ method ++ " /" ++ path)
  else if Text.hasSub "schedule".toList lowered || Text.hasSub "cron".toList lowered then
    let rule := schedule node
    some (.scheduledTrigger, if rule = "" then "Schedule trigger" else "Schedule: " ++ rule)
  else if Text.hasSub "trigger".toList lowered then
    some (.workflowTrigger, "Trigger: " ++ type)
  else none

/-- The entry point of a workflow node. Nodes have no line. -/
def nodeEntryPoint? (path : String) (node : Json) : Option EntryPoint :=
  let type := ((node.get? "type").bind Json.str?).getD ""
  (nodeTrigger? node type).map fun (kind, trigger) =>
    { kind, trigger
      name := ((node.get? "name").bind Json.str?).getD "Unknown"
      file := path
      line := 0
      isActive := !((node.get? "disabled").bind Json.bool?).getD false }

def workflowEntries (path : String) (workflow : Json) : List EntryPoint :=
  match workflow.get? "nodes" with
  | some (.arr nodes) => nodes.filterMap (nodeEntryPoint? path)
  | _ => []

/-- The entry points of a document. A text that is not the expected JSON has none. -/
def entryPoints (kind : DocumentKind) (path : String) (text : List Char) : List EntryPoint :=
  match kind with
  | .html => pageEntries path text
  | .packageManifest => (Json.parsePlain? (String.ofList text)).elim [] (packageEntries path)
  | .workflow => (Json.parsePlain? (String.ofList text)).elim [] (workflowEntries path)

end Document

end CodeSurvey
