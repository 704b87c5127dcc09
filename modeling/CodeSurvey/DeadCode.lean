import CodeSurvey.CallGraph

/-!
# Dead functions

A function that nothing calls is dead, unless there is a reason to keep it.
-/
namespace CodeSurvey

/-- Why a function that nothing calls is not reported. -/
inductive Exemption where
  | entryPoint
  | moduleScope
  | testMarker
  | dunder
  | exported
  deriving DecidableEq, Repr

/-- Longer than four bytes, with two underscores at both ends. -/
def isDunder (name : String) : Bool :=
  4 < name.utf8ByteSize && ['_', '_'].isPrefixOf name.toList && ['_', '_'].isSuffixOf name.toList

/-- Whether a marker, if there is one, occurs in a text in small ASCII letters. -/
def marks (marker text : String) : Bool :=
  marker != "" && Text.hasSub marker.toList (Text.lower text.toList)

/-- What decides about a function. -/
structure Suspect where
  name : String
  simpleName : String
  scope : ScopeKind
  exported : Bool
  path : String

/-- The first exemption that applies. -/
def Suspect.exemption? (entryNames : List String) (marker : String) (s : Suspect) :
    Option Exemption :=
  if entryNames.contains s.name || entryNames.contains s.simpleName then some .entryPoint
  else if s.scope = .module then some .moduleScope
  else if marks marker s.simpleName || marks marker s.path then some .testMarker
  else if isDunder s.simpleName then some .dunder
  else if s.exported then some .exported
  else none

def suspects (calls : CallGraph) (files : List ExtractedFile) : List (String × Suspect) :=
  files.flatMap fun f =>
    (f.functions.zip (calls.table.inFile f.path)).map fun (d, definition) =>
      (definition.id,
        ⟨definition.name, definition.simpleName, definition.scope, d.exported, f.path⟩)

/-- The functions that nothing calls and that are not exempt, in ascending order. -/
def deadFunctions (files : List ExtractedFile) (calls : CallGraph) (entryPoints : List EntryPoint)
    (marker : String) : List String :=
  let called := calls.called
  let names := entryPoints.map EntryPoint.name
  let marker := String.ofList (Text.lower marker.toList)
  let dead := (suspects calls files).filter fun (id, s) =>
    !called.contains id && (s.exemption? names marker).isNone
  (dead.map Prod.fst).mergeSort

end CodeSurvey
