/-!
# Entry points

Places of a source tree that something outside of it calls.
-/
namespace CodeSurvey

inductive EntryKind where
  | mainBlock
  | mainFunction
  | packageMain
  | cliRoute
  | httpRoute
  | scheduledTrigger
  | uiMenu
  | appProtocol
  | appDelegate
  | sceneDelegate
  | script
  | packageBin
  | packageExport
  | webhook
  | workflowTrigger
  deriving DecidableEq, Repr, Inhabited

namespace EntryKind

def all : List EntryKind :=
  [.mainBlock, .mainFunction, .packageMain, .cliRoute, .httpRoute, .scheduledTrigger, .uiMenu,
   .appProtocol, .appDelegate, .sceneDelegate, .script, .packageBin, .packageExport, .webhook,
   .workflowTrigger]

def label : EntryKind → String
  | .mainBlock => "main-block"
  | .mainFunction => "main-function"
  | .packageMain => "package-main"
  | .cliRoute => "cli-route"
  | .httpRoute => "http-route"
  | .scheduledTrigger => "scheduled-trigger"
  | .uiMenu => "ui-menu"
  | .appProtocol => "app-protocol"
  | .appDelegate => "app-delegate"
  | .sceneDelegate => "scene-delegate"
  | .script => "script"
  | .packageBin => "package-bin"
  | .packageExport => "package-export"
  | .webhook => "webhook"
  | .workflowTrigger => "workflow-trigger"

def ofLabel? (s : String) : Option EntryKind :=
  all.find? (·.label == s)

/-- What is said of an entry point when nothing more is known. -/
def defaultTrigger : EntryKind → String
  | .mainBlock => "Main block"
  | .mainFunction => "Module-level main() function"
  | .packageMain => "Package entry point"
  | .cliRoute => "CLI command"
  | .httpRoute => "HTTP route handler"
  | .scheduledTrigger => "Scheduled or event trigger"
  | .uiMenu => "Custom menu function"
  | .appProtocol => "SwiftUI App protocol"
  | .appDelegate => "UIKit AppDelegate"
  | .sceneDelegate => "UIKit SceneDelegate"
  | .script => "HTML script entry"
  | .packageBin => "package.json bin field"
  | .packageExport => "package.json exports field"
  | .webhook => "Workflow webhook trigger"
  | .workflowTrigger => "Workflow trigger node"

end EntryKind

structure EntryPoint where
  kind : EntryKind
  name : String
  file : String
  /-- Counted from one; zero where the place has no line. -/
  line : Nat
  trigger : String
  isActive : Bool
  deriving DecidableEq, Repr, Inhabited

namespace EntryPoint

def new (kind : EntryKind) (name file : String) (line : Nat) : EntryPoint :=
  ⟨kind, name, file, line, kind.defaultTrigger, true⟩

def withTrigger (trigger : String) (e : EntryPoint) : EntryPoint :=
  { e with trigger := trigger }

end EntryPoint

end CodeSurvey
