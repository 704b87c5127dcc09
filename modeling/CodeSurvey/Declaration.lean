import CodeSurvey.Parameter
import CodeSurvey.Pattern
import CodeSurvey.Scope

/-!
# Declared functions

A function found in a source text. Within a file it is known by its name, which has the enclosing
type in front if there is one.
-/
namespace CodeSurvey

structure Declaration where
  name : String
  /-- Counted from one. -/
  line : Nat
  scope : ScopeKind
  signature : String
  params : List Parameter
  returnType : Option String
  purpose : Option String
  /-- The declaration is marked as visible to others. -/
  exported : Bool
  deriving DecidableEq, Repr, Inhabited

/-- The part of a name before the last dot, and the part after it. -/
def splitName (name : String) : Option String × String :=
  let simple := name.toList.reverse.takeWhile (· != '.')
  match name.toList.reverse.drop simple.length with
  | [] => (none, name)
  | _ :: owner => (some (String.ofList owner.reverse), String.ofList simple.reverse)

namespace Declaration

/-- The name without the enclosing type. -/
def simpleName (d : Declaration) : String :=
  (splitName d.name).2

def owner? (d : Declaration) : Option String :=
  (splitName d.name).1

/-- Keeps the first declaration of each name. -/
def firstOfEachName (ds : List Declaration) : List Declaration :=
  ds.eraseDupsBy fun a b => a.name == b.name

end Declaration

open Pattern in
/-- A word that makes a declaration visible to others. -/
def exportMarker : Pattern :=
  .wordEdge ++ anyOf ["export", "public", "open"] ++ .wordEdge

def hasExportMarker (declaration : List Char) : Bool :=
  exportMarker.occurs declaration

/-- The parameters as they stand in a signature. -/
def renderParameters (params : List Parameter) : String :=
  ", ".intercalate (params.map Parameter.render)

end CodeSurvey
