import CodeSurvey.Doc.Comment

/-!
# Types declared in documentation

Types of parameters and results that are written in tags, fields or sections of a documentation
comment instead of the signature.
-/
namespace CodeSurvey.Doc

structure TypeTags where
  params : List (String × String)
  returns : Option String
  deriving DecidableEq, Repr

namespace TypeTags

def empty : TypeTags :=
  ⟨[], none⟩

def param? (t : TypeTags) (name : String) : Option String :=
  t.params.lookup name

/-- Declares the type of a parameter; a later declaration replaces an earlier one. -/
def declare (t : TypeTags) (name type : String) : TypeTags :=
  { t with params := (name, type) :: t.params.filter (·.1 != name) }

/-- Declares the type of a parameter that has none yet. -/
def declareNew (t : TypeTags) (name type : String) : TypeTags :=
  if (t.param? name).isSome then t else t.declare name type

/-- Declares the type of the result if there is none yet. -/
def returnsNew (t : TypeTags) (type : String) : TypeTags :=
  { t with returns := some (t.returns.getD type) }

end TypeTags

section Patterns
open Pattern

private def braced : Pattern :=
  one '\x7b' ++ group "type" (run1 (· != '\x7d')) ++ one '\x7d'

/-- An at sign, `param`, a type in braces and a name, perhaps after an opening bracket. -/
def paramTag : Pattern :=
  lit "@param" ++ blank ++ braced ++ blank ++ opt (one '[') ++
    group "name" (run1 fun c => Text.isWord c || c == '$' || c == '.')

def returnsTag : Pattern :=
  lit "@return" ++ opt (one 's') ++ blank ++ braced

/-- A parameter name with up to two stars in front. -/
private def starredName : Pattern :=
  group "name" (opt (one '*' ++ opt (one '*')) ++ run1 Text.isWord)

private def notLineFeed (c : Char) : Bool :=
  c != '\n'

def typeField : Pattern :=
  lit ":type" ++ blank ++ starredName ++ gap ++ one ':' ++ gap ++
    group "type" (run1 notLineFeed) ++ textEnd

def typedParamField : Pattern :=
  lit ":param" ++ blank ++ group "type" (shortRun1 (· != ':')) ++ blank ++ starredName ++ gap ++
    one ':'

def returnTypeField : Pattern :=
  lit ":rtype:" ++ gap ++ group "type" (run1 notLineFeed) ++ textEnd

def sectionParam : Pattern :=
  starredName ++ gap ++ one '(' ++ group "type" (run1 (· != ')')) ++ one ')' ++ gap ++ one ':'

def sectionReturn : Pattern :=
  group "type" (.char (fun c => c.isAlpha || c == '_') ++
    .shortRun fun c => Text.isWord c || "[], .|".toList.contains c) ++
    gap ++ one ':' ++ .char Text.isBlank

end Patterns

private def trimmed (m : Pattern.Match) (name : String) : String :=
  String.ofList (Text.trim (m.text name))

/-- Types from the tags of a documentation block; the first tag for a name counts. -/
def tagTypes (lines : List (List Char)) : TypeTags :=
  lines.foldl (fun t line =>
    match paramTag.find? line with
    | some m => t.declareNew (m.string "name") (trimmed m "type")
    | none =>
      match returnsTag.find? line with
      | some m => t.returnsNew (trimmed m "type")
      | none => t) .empty

/-- The docstring section that the lines belong to. -/
inductive Section where
  | other
  | params
  | returns
  deriving DecidableEq

def Section.ofTitle (line : List Char) : Section :=
  if "Arg".toList.isPrefixOf line || "Param".toList.isPrefixOf line then .params
  else if "Return".toList.isPrefixOf line then .returns
  else .other

/-- A type without the remark that its parameter is optional. -/
private def withoutOptional (fuel : Nat) (cs : List Char) : List Char :=
  match fuel with
  | 0 => cs
  | n + 1 =>
    match Text.stripEnd? ", optional".toList cs with
    | some rest => withoutOptional n rest
    | none => cs

/-- Reads a line that is no field and no section title. -/
private def sectionLine (t : TypeTags) (s : Section) (line : List Char) : TypeTags × Section :=
  match s with
  | .other => (t, .other)
  | .params =>
    match sectionParam.matchHead? line with
    | some m =>
      let type := Text.trim (m.text "type")
      (t.declareNew (m.string "name")
        (String.ofList (Text.trim (withoutOptional type.length type))), .params)
    | none => (t, .params)
  | .returns =>
    match sectionReturn.matchHead? line with
    | some m => (t.returnsNew (trimmed m "type"), .other)
    | none => (t, .other)

private def docstringLine (t : TypeTags) (s : Section) (line : List Char) : TypeTags × Section :=
  match typeField.matchHead? line with
  | some m => (t.declare (m.string "name") (trimmed m "type"), s)
  | none =>
    match typedParamField.matchHead? line with
    | some m => (t.declareNew (m.string "name") (trimmed m "type"), s)
    | none =>
      match returnTypeField.matchHead? line with
      | some m => ({ t with returns := some (trimmed m "type") }, s)
      | none =>
        if isSectionTitle line then (t, Section.ofTitle line)
        else if line.isEmpty then (t, s)
        else sectionLine t s line

/-- Types from the fields and sections of a docstring. -/
def docstringTypes (body : List Char) : TypeTags :=
  (((Text.lines body).map Text.trim).foldl
    (fun (t, s) line => docstringLine t s line) (TypeTags.empty, Section.other)).1

end CodeSurvey.Doc
