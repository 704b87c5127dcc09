import CodeSurvey.Cache.Store
import CodeSurvey.Json.Printer
import CodeSurvey.Json.Reader
import CodeSurvey.Warning

/-!
# Stores in JSON

The written form of a store, and the older forms that are still read. Each entry is read on its own:
a bad one is dropped with a warning and does not touch the others.
-/
namespace CodeSurvey.Cache

namespace HashKind

def label : HashKind → String
  | .blake3 => "blake3"
  | .legacySha256 => "legacy-sha256"

def ofLabel? : String → Option HashKind
  | "blake3" => some .blake3
  | "legacy-sha256" => some .legacySha256
  | _ => none

end HashKind

namespace Entry

def toJson (e : Entry) : Json :=
  .obj <| ("contentHash", .str e.contentHash) ::
    (if e.hashKind = .blake3 then [] else [("hashKind", .str e.hashKind.label)]) ++
    Json.member? "patternVersion" .ofNat e.patternVersion ++
    ("parsedAt", .str e.parsedAt) :: e.extraction.members

def ofJson? (j : Json) : Option Entry := do
  let fs ← j.fields? ["contentHash", "hashKind", "patternVersion", "parsedAt", "functions", "meta"]
  return {
    contentHash := ← Json.required fs "contentHash" Json.str?
    hashKind := ← Json.defaulted fs "hashKind" .blake3 (Json.labelled? HashKind.ofLabel?)
    patternVersion := ←
      Json.defaulted fs "patternVersion" none (Json.nullable? (Json.natBelow? UInt32.size))
    parsedAt := ← Json.defaulted fs "parsedAt" "" Json.str?
    extraction := ← Extraction.ofFields? fs }

end Entry

/-! ### Entries of older stores -/

/-- A text that is not blank. -/
def substantial (s : String) : Bool :=
  !Text.isBlankLine s.toList

private def optionalText (fs : List (String × Json)) (name : String) : Option (Option String) :=
  (Json.defaulted fs name none (Json.nullable? Json.str?)).map (·.filter substantial)

/-- A blank type or default counts as none. -/
def legacyParameter? (j : Json) : Option Parameter :=
  (Parameter.ofJson? j).map fun p =>
    { p with
      typeName := p.typeName.filter substantial
      defaultValue := p.defaultValue.filter substantial }

/-- Without a known scope, a function whose name has a dot is a member of a type. -/
def legacyDeclaration? (j : Json) : Option Declaration := do
  let fs ← j.fields? ["name", "line", "scope", "signature", "paramsTyped", "returnType", "purpose"]
  let name ← Json.required fs "name" Json.str?
  let scope ← Json.defaulted fs "scope" none (Json.nullable? Json.str?)
  return {
    name
    line := ← Json.defaulted fs "line" 0 Json.nat?
    scope := (scope.bind ScopeKind.ofAnyLabel?).getD
      (if name.toList.contains '.' then .type else .module)
    signature := (← optionalText fs "signature").getD (name ++ "()")
    params := ← Json.defaulted fs "paramsTyped" [] (Json.list? legacyParameter?)
    returnType := ← optionalText fs "returnType"
    purpose := ← optionalText fs "purpose"
    exported := false }

def legacyMeta? (j : Json) : Option FileMeta := do
  let fs ← j.fields? ["lang", "purpose", "importsInternal", "importsExternal", "wasTruncated"]
  return {
    language := ← Json.defaulted fs "lang" "" Json.str?
    purpose := ← optionalText fs "purpose"
    imports := {
      internal := ← Json.defaulted fs "importsInternal" [] (Json.list? Json.str?)
      external := ← Json.defaulted fs "importsExternal" [] (Json.list? Json.str?) }
    entryPoints := []
    wasTruncated := ← Json.defaulted fs "wasTruncated" false Json.bool? }

/-- Reads an entry of an older store; its hash may be missing. -/
def legacyEntry? (j : Json) : Option (Option Entry) := do
  let fs ← j.fields? ["contentHash", "parsedAt", "funcs", "meta"]
  let hash ← optionalText fs "contentHash"
  let parsedAt ← Json.defaulted fs "parsedAt" none (Json.nullable? Json.str?)
  let functions ← Json.defaulted fs "funcs" [] (Json.list? legacyDeclaration?)
  let fileMeta ← Json.defaulted fs "meta" ⟨"", none, ⟨[], []⟩, [], false⟩ legacyMeta?
  return hash.map fun contentHash =>
    { contentHash
      hashKind := .legacySha256
      patternVersion := none
      parsedAt := parsedAt.getD ""
      extraction := ⟨functions, fileMeta⟩ }

/-! ### Reading an entry -/

/-- Reads an entry in the current or the older form. -/
def readEntry (j : Json) : Except EntryFault Entry :=
  let read : Except EntryFault Entry :=
    if (j.get? "functions").isSome then
      match Entry.ofJson? j with
      | some e => .ok e
      | none => .error .undecodable
    else if (j.get? "funcs").isSome || (j.get? "contentHash").isSome then
      match legacyEntry? j with
      | some (some e) => .ok e
      | some none => .error .noContentHash
      | none => .error .undecodableLegacy
    else .error .unknownLayout
  match read with
  | .ok e => if e.contentHash = "" then .error .noContentHash else .ok e
  | .error fault => .error fault

namespace Store

def toJson (s : Store) : Json :=
  .obj [("schemaVersion", .ofNat schemaVersion), ("createdAt", .str s.createdAt),
    ("entries", .ofTable Entry.toJson s.entries)]

/-- A natural number that fits 64 bits, written as a number or in a text, where a plus sign may
stand in front of it. -/
def versionNumber? : Json → Option Nat
  | .str s =>
    let cs := Text.trim s.toList
    let digits := if cs.head? == some '+' then cs.tail else cs
    if digits.isEmpty || !digits.all Char.isDigit then none
    else
      let n := digits.foldl (fun n c => n * 10 + (c.toNat - '0'.toNat)) 0
      if n < UInt64.size then some n else none
  | j => j.nat?

/-- How the entries of a document are laid out. -/
structure Layout where
  label : String
  isCurrent : Bool
  entries : Json

/-- Finds the entries of a document: under `entries` next to a schema version, under `files` or
beside the marker next to an older one, or else all over the document. -/
def layout (document : Json) : Layout :=
  match (document.get? "schemaVersion").bind versionNumber?, document.get? "_schema_version" with
  | some v, _ =>
    ⟨toString v, v == schemaVersion, (document.get? "entries").getD (.obj [])⟩
  | none, some marker =>
    ⟨marker.str?.getD marker.compact, false, (document.get? "files").getD document⟩
  | none, none => ⟨"unversioned", false, document⟩

/-- Takes over one entry. Names with an underscore in front are no files. -/
def loadEntry (acc : Table Entry × List Warning) (member : String × Json) :
    Table Entry × List Warning :=
  let (path, j) := member
  if path.toList.head? == some '_' then acc
  else
    match readEntry j with
    | .ok e => (acc.1.insert path e, acc.2)
    | .error fault => (acc.1, acc.2 ++ [.entryDiscarded path fault])

/-- The store that a plain value holds, in any layout. -/
def ofJson (now : String) (document : Json) : Store × List Warning :=
  match document with
  | .obj _ =>
    let l := layout document
    let createdAt :=
      if l.isCurrent then ((document.get? "createdAt").bind Json.str?).getD now else now
    match l.entries with
    | .obj members =>
      let (entries, warnings) := members.foldl loadEntry ([], [])
      let upgrade :=
        if l.isCurrent then [] else [.storeUpgraded l.label schemaVersion entries.length]
      (⟨createdAt, entries⟩, warnings ++ upgrade)
    | _ => (⟨createdAt, []⟩, [.entriesNotObject])
  | _ => (empty now, [.storeNotObject])

def print (s : Store) : String :=
  s.toJson.compact

/-- The store that a text holds, unless the text is no JSON. -/
def parse? (now text : String) : Option (Store × List Warning) :=
  (Json.parsePlain? text).map (ofJson now)

end Store

end CodeSurvey.Cache
