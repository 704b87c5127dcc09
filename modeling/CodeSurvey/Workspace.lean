import CodeSurvey.Graph.Cycle
import CodeSurvey.Json.Reader
import CodeSurvey.Json.Record

/-!
# Workspaces

The packages of a repository that holds several, and the graph of their dependencies on each other.
-/
namespace CodeSurvey

structure Workspace where
  name : String
  path : String
  kind : String
  externalDependencies : Table String
  internalDependencies : List String
  deriving DecidableEq, Repr

structure WorkspaceTable where
  schemaVersion : Nat
  workspaces : List Workspace
  deriving DecidableEq, Repr

structure WorkspaceReport where
  /-- In the order of their names. -/
  workspaces : List Workspace
  dependencies : Table (List String)
  dependents : Table (List String)
  circular : List (List String)
  kinds : Table Nat
  deriving DecidableEq, Repr

namespace WorkspaceReport

def internalEdges (r : WorkspaceReport) : Nat :=
  r.dependencies.foldr (fun e n => e.2.length + n) 0

/-- For every name that something depends on, what depends on it. -/
def invert (dependencies : Table (List String)) : Table (List String) :=
  dependencies.foldl (fun t (name, targets) =>
    targets.foldl (fun t target => t.modify target [] (· ++ [name])) t) []

end WorkspaceReport

namespace WorkspaceTable

/-- The workspaces by name; of a repeated name the last one counts. -/
def byName (t : WorkspaceTable) : Table Workspace :=
  Table.ofList (t.workspaces.map fun w => (w.name, w))

/-- The report on a table; an empty table has none. -/
def report? (t : WorkspaceTable) : Option WorkspaceReport :=
  if t.workspaces.isEmpty then none
  else
    let workspaces := t.byName
    let dependencies := workspaces.map fun (name, w) => (name, sortedSet w.internalDependencies)
    some {
      workspaces := workspaces.map Prod.snd
      dependencies
      dependents := WorkspaceReport.invert dependencies
      circular := (Graph.ofAdjacency dependencies).cycles
      kinds := workspaces.foldl (fun t (_, w) => t.modify w.kind 0 (· + 1)) [] }

end WorkspaceTable

/-- An object whose members are texts; of a repeated name the last one counts. -/
def Json.textTable? : Json → Option (Table String)
  | .obj members =>
    (members.mapM fun (m : String × Json) => m.2.str?.map (Prod.mk m.1)).map Table.ofList
  | _ => none

namespace Workspace

def toJson (w : Workspace) : Json :=
  .obj [("name", .str w.name), ("path", .str w.path), ("type", .str w.kind),
    ("externalDependencies", .ofTable .str w.externalDependencies),
    ("internalDependencies", .strings w.internalDependencies)]

def ofJson? (j : Json) : Option Workspace := do
  let fs ← j.fields? ["name", "path", "type", "externalDependencies", "internalDependencies"]
  return {
    name := ← Json.required fs "name" Json.str?
    path := ← Json.defaulted fs "path" "" Json.str?
    kind := ← Json.defaulted fs "type" "" Json.str?
    externalDependencies := ← Json.defaulted fs "externalDependencies" [] Json.textTable?
    internalDependencies := ← Json.defaulted fs "internalDependencies" [] (Json.list? Json.str?) }

end Workspace

namespace WorkspaceTable

def ofJson? (j : Json) : Option WorkspaceTable := do
  let fs ← j.fields? ["schemaVersion", "workspaces"]
  return {
    schemaVersion := ← Json.defaulted fs "schemaVersion" 1 (Json.natBelow? UInt32.size)
    workspaces := ← Json.defaulted fs "workspaces" [] (Json.list? Workspace.ofJson?) }

def parse? (text : String) : Option WorkspaceTable :=
  (Json.parse? text).bind ofJson?

end WorkspaceTable

namespace WorkspaceReport

def toJson (r : WorkspaceReport) : Json :=
  .obj [("workspaces", .arr (r.workspaces.map Workspace.toJson)),
    ("dependencyGraph", .ofTable .strings r.dependencies),
    ("reverseDependencies", .ofTable .strings r.dependents),
    ("circularDependencies", .arr (r.circular.map .strings)),
    ("stats", .obj [("totalWorkspaces", .ofNat r.workspaces.length),
      ("workspaceTypes", .ofTable .ofNat r.kinds),
      ("internalEdges", .ofNat r.internalEdges),
      ("circularDependencyCount", .ofNat r.circular.length)])]

end WorkspaceReport

end CodeSurvey
