import CodeSurvey.Document
import CodeSurvey.Json.Record
import CodeSurvey.Registry

/-!
# Extraction

Everything that is read from one file: its functions, its import tokens, what it is for, and its
entry points; and the form in which it is written down.
-/
namespace CodeSurvey

structure ImportTokens where
  internal : List String
  external : List String
  deriving DecidableEq, Repr, Inhabited

structure FileMeta where
  language : String
  purpose : Option String
  imports : ImportTokens
  entryPoints : List EntryPoint
  wasTruncated : Bool
  deriving DecidableEq, Repr, Inhabited

structure Extraction where
  functions : List Declaration
  fileMeta : FileMeta
  deriving DecidableEq, Repr, Inhabited

/-- Removes what the capabilities do not cover. The signature stays as it was written. -/
def Declaration.within (caps : Capabilities) (d : Declaration) : Declaration :=
  { d with
    returnType := if caps.types then d.returnType else none
    params := if caps.types then d.params
      else d.params.map fun p => { p with typeName := none }
    purpose := if caps.purpose then d.purpose else none }

/-- Import tokens, split into those of the tree or the standard library and the others. -/
def ImportTokens.classify (language : Language) (tokens : List String) : ImportTokens :=
  let (internal, external) := tokens.partition language.isInternalImport
  ⟨internal, external⟩

namespace Extraction

/-- Reads a source file. -/
def ofCode (language : Language) (caps : Capabilities) (path : String) (truncated : Bool)
    (text : List Char) : Extraction :=
  let view := language.codeView path text
  { functions := (language.declarations view).map (Declaration.within caps)
    fileMeta :=
      { language := caps.languageName
        purpose := if caps.purpose then language.filePurpose? view else none
        imports := if caps.imports then ImportTokens.classify language (language.imports view)
          else ⟨[], []⟩
        entryPoints := if caps.entryPoints then language.entryPoints path view else []
        wasTruncated := truncated } }

/-- Reads a document. -/
def ofDocument (kind : DocumentKind) (path : String) (truncated : Bool) (text : List Char) :
    Extraction :=
  { functions := []
    fileMeta :=
      { language := kind.label
        purpose := none
        imports := ⟨[], []⟩
        entryPoints := Document.entryPoints kind path text
        wasTruncated := truncated } }

/-- What is known of a file that nothing reads. -/
def empty : Extraction :=
  ⟨[], ⟨"", none, ⟨[], []⟩, [], false⟩⟩

end Extraction

namespace Parameter

def toJson (p : Parameter) : Json :=
  .obj <| ("name", .str p.name) :: Json.member? "type" .str p.typeName ++
    Json.member? "default" .str p.defaultValue

def ofJson? (j : Json) : Option Parameter := do
  let fs ← j.fields? ["name", "type", "default"]
  return {
    name := ← Json.required fs "name" Json.str?
    typeName := ← Json.defaulted fs "type" none (Json.nullable? Json.str?)
    defaultValue := ← Json.defaulted fs "default" none (Json.nullable? Json.str?) }

end Parameter

namespace Declaration

def toJson (d : Declaration) : Json :=
  .obj <| [("name", .str d.name), ("line", .ofNat d.line), ("scope", .str d.scope.label),
      ("signature", .str d.signature), ("params", .arr (d.params.map Parameter.toJson))] ++
    Json.member? "returnType" .str d.returnType ++ Json.member? "purpose" .str d.purpose ++
    [("exported", .bool d.exported)]

def ofJson? (j : Json) : Option Declaration := do
  let fs ← j.fields? ["name", "line", "scope", "signature", "params", "returnType", "purpose",
    "exported"]
  return {
    name := ← Json.required fs "name" Json.str?
    line := ← Json.required fs "line" Json.nat?
    scope := ← Json.required fs "scope" (Json.looselyLabelled? ScopeKind.ofLabel?)
    signature := ← Json.required fs "signature" Json.str?
    params := ← Json.defaulted fs "params" [] (Json.list? Parameter.ofJson?)
    returnType := ← Json.defaulted fs "returnType" none (Json.nullable? Json.str?)
    purpose := ← Json.defaulted fs "purpose" none (Json.nullable? Json.str?)
    exported := ← Json.defaulted fs "exported" false Json.bool? }

end Declaration

namespace EntryPoint

def toJson (e : EntryPoint) : Json :=
  .obj [("type", .str e.kind.label), ("name", .str e.name), ("file", .str e.file),
    ("line", .ofNat e.line), ("trigger", .str e.trigger), ("isActive", .bool e.isActive)]

def ofJson? (j : Json) : Option EntryPoint := do
  let fs ← j.fields? ["type", "name", "file", "line", "trigger", "isActive"]
  return {
    kind := ← Json.required fs "type" (Json.looselyLabelled? EntryKind.ofLabel?)
    name := ← Json.required fs "name" Json.str?
    file := ← Json.required fs "file" Json.str?
    line := ← Json.required fs "line" Json.nat?
    trigger := ← Json.required fs "trigger" Json.str?
    isActive := ← Json.defaulted fs "isActive" true Json.bool? }

end EntryPoint

namespace ImportTokens

def toJson (i : ImportTokens) : Json :=
  .obj [("internal", .strings i.internal), ("external", .strings i.external)]

def ofJson? (j : Json) : Option ImportTokens := do
  let fs ← j.fields? ["internal", "external"]
  return {
    internal := ← Json.defaulted fs "internal" [] (Json.list? Json.str?)
    external := ← Json.defaulted fs "external" [] (Json.list? Json.str?) }

end ImportTokens

namespace FileMeta

def toJson (m : FileMeta) : Json :=
  .obj <| ("language", .str m.language) :: Json.member? "purpose" .str m.purpose ++
    [("imports", m.imports.toJson), ("entryPoints", .arr (m.entryPoints.map EntryPoint.toJson)),
     ("wasTruncated", .bool m.wasTruncated)]

def ofJson? (j : Json) : Option FileMeta := do
  let fs ← j.fields? ["language", "purpose", "imports", "entryPoints", "wasTruncated"]
  return {
    language := ← Json.required fs "language" Json.str?
    purpose := ← Json.defaulted fs "purpose" none (Json.nullable? Json.str?)
    imports := ← Json.defaulted fs "imports" ⟨[], []⟩ ImportTokens.ofJson?
    entryPoints := ← Json.defaulted fs "entryPoints" [] (Json.list? EntryPoint.ofJson?)
    wasTruncated := ← Json.defaulted fs "wasTruncated" false Json.bool? }

end FileMeta

namespace Extraction

def members (x : Extraction) : List (String × Json) :=
  [("functions", .arr (x.functions.map Declaration.toJson)), ("meta", x.fileMeta.toJson)]

def toJson (x : Extraction) : Json :=
  .obj x.members

/-- Reads the two parts from the fields of a record. -/
def ofFields? (fs : List (String × Json)) : Option Extraction := do
  return {
    functions := ← Json.required fs "functions" (Json.list? Declaration.ofJson?)
    fileMeta := ← Json.required fs "meta" FileMeta.ofJson? }

def ofJson? (j : Json) : Option Extraction := do
  ofFields? (← j.fields? ["functions", "meta"])

end Extraction

end CodeSurvey
