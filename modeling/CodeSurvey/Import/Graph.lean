import CodeSurvey.Graph.Cycle
import CodeSurvey.Import.Resolve
import CodeSurvey.SourceFile
import Std.Data.HashSet

/-!
# The import graph

Every import token of every file becomes an edge to the file it means or stays as an unresolved
import.
-/
namespace CodeSurvey.Import

/-- An import of one file by another, with the first token that led there. -/
structure Edge where
  source : String
  target : String
  token : String
  deriving DecidableEq, Repr

inductive UnresolvedKind where
  /-- Something outside the tree. -/
  | external
  /-- A token that points into the tree, to no file. -/
  | unresolved
  deriving DecidableEq, Repr

def UnresolvedKind.label : UnresolvedKind → String
  | .external => "external"
  | .unresolved => "unresolved"

structure Unresolved where
  source : String
  token : String
  kind : UnresolvedKind
  deriving DecidableEq, Repr

def Edge.toJson (e : Edge) : Json :=
  .obj [("from", .str e.source), ("to", .str e.target), ("importPath", .str e.token)]

def Unresolved.toJson (u : Unresolved) : Json :=
  .obj [("from", .str u.source), ("importPath", .str u.token), ("kind", .str u.kind.label)]

structure Resolution where
  resolved : List Edge
  unresolved : List Unresolved
  graph : Graph
  deriving DecidableEq, Repr

namespace Resolution

def empty : Resolution :=
  ⟨[], [], .empty⟩

/-- The state of the walk over the files: what has been accounted for, and the pairs of files
between which an import has been recorded. -/
structure Walk where
  result : Resolution
  seen : Std.HashSet (String × String)

namespace Walk

def start : Walk :=
  ⟨.empty, ∅⟩

/-- Accounts for one token of a file. An import of the file itself is not recorded, nor a second one
of the same file. -/
def addToken (language : Language) (present : String → Bool) (source : String) (w : Walk)
    (token : String) : Walk :=
  match resolve? language present token source with
  | some target =>
    if target != source && !w.seen.contains (source, target) then
      { result :=
          { w.result with
            resolved := w.result.resolved ++ [⟨source, target, token⟩]
            graph := w.result.graph.addEdge source target }
        seen := w.seen.insert (source, target) }
    else w
  | none =>
    let kind := if language.isRelativeImport token then .unresolved else .external
    { w with
      result := { w.result with unresolved := w.result.unresolved ++ [⟨source, token, kind⟩] } }

/-- Accounts for the tokens of a file; a file that no language reads has none. -/
def addFile (registry : Registry) (present : String → Bool) (w : Walk) (f : ExtractedFile) : Walk :=
  match registry.forPath? f.path with
  | none => w
  | some { language, .. } =>
    let imports := f.extraction.fileMeta.imports
    (imports.internal ++ imports.external).foldl (addToken language present f.path)
      { w with result := { w.result with graph := w.result.graph.addNode f.path } }

end Walk

/-- The imports of all files, where `present` tells the files of the tree. -/
def ofFiles (registry : Registry) (present : String → Bool) (files : List ExtractedFile) :
    Resolution :=
  (files.foldl (Walk.addFile registry present) .start).result

def circular (r : Resolution) : List (List String) :=
  r.graph.cycles

end Resolution

end CodeSurvey.Import
