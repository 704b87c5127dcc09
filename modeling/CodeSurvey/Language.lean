import CodeSurvey.Language.JavaScript
import CodeSurvey.Language.Python
import CodeSurvey.Language.Swift

/-!
# Languages

The languages whose files are read, and what each contributes to a survey.
-/
namespace CodeSurvey

inductive Language where
  | python
  | javaScript
  | swift
  deriving DecidableEq, Repr

/-- How import tokens are written: with dots between modules, or as paths. -/
inductive ImportStyle where
  | dotted
  | path
  deriving DecidableEq, Repr

/-- What is extracted from files with a given extension. -/
structure Capabilities where
  languageName : String
  defaultExtension : String
  types : Bool
  imports : Bool
  purpose : Bool
  entryPoints : Bool
  /-- What was found with other patterns is not used again. -/
  patternVersion : Nat
  deriving DecidableEq, Repr

namespace Language

def all : List Language :=
  [.python, .javaScript, .swift]

def name : Language → String
  | .python => "Python"
  | .javaScript => "JavaScript"
  | .swift => "Swift"

def extensions : Language → List String
  | .python => ["py"]
  | .javaScript => ["js", "jsx", "vue", "gs", "ts", "tsx"]
  | .swift => ["swift"]

def capabilities (language : Language) (extension : String) : Capabilities :=
  match language with
  | .python => ⟨"Python", "py", true, true, true, true, 1⟩
  | .javaScript =>
    let typed := extension = "ts" || extension = "tsx"
    { languageName := if typed then "TypeScript" else "JavaScript"
      defaultExtension := if typed then "ts" else "js"
      types := true
      imports := true
      purpose := true
      entryPoints := extension = "gs"
      patternVersion := 1 }
  | .swift => ⟨"Swift", "swift", true, false, true, true, 1⟩

def lexis : Language → Lexis
  | .python => Python.lexis
  | .javaScript => JavaScript.lexis
  | .swift => Swift.lexis

/-- The part of a file that is code; its lines keep their numbers. -/
def codeView (language : Language) (path : String) (text : List Char) : List Char :=
  match language with
  | .javaScript => JavaScript.codeView path text
  | _ => text

def declarations : Language → List Char → List Declaration
  | .python => Python.declarations
  | .javaScript => JavaScript.declarations
  | .swift => Swift.declarations

def imports : Language → List Char → List String
  | .python => Python.imports
  | .javaScript => JavaScript.imports
  | .swift => fun _ => []

def filePurpose? : Language → List Char → Option String
  | .python => Python.filePurpose?
  | .javaScript => JavaScript.filePurpose?
  | .swift => Swift.filePurpose?

def entryPoints : Language → String → List Char → List EntryPoint
  | .python => Python.entryPoints
  | .javaScript => JavaScript.entryPoints
  | .swift => Swift.entryPoints

def importStyle : Language → ImportStyle
  | .python => .dotted
  | _ => .path

/-- Whether a token points into the tree by its form. -/
def isRelativeImport : Language → String → Bool
  | .python => Python.isRelativeImport
  | .javaScript => JavaScript.isRelativeImport
  | .swift => fun _ => false

/-- Whether a token names a module of the standard library. -/
def isStandardImport : Language → String → Bool
  | .python => Python.isStandardImport
  | _ => fun _ => false

def isInternalImport (language : Language) (token : String) : Bool :=
  language.isRelativeImport token || language.isStandardImport token

/-- What may follow a base path when a token is resolved, in the order of trial. -/
def moduleSuffixes : Language → List String
  | .python => Python.moduleSuffixes
  | .javaScript => JavaScript.moduleSuffixes
  | .swift => Swift.moduleSuffixes

/-- Words before a parenthesis that call no function of the tree. -/
def stoplist : Language → List String
  | .python => Python.stoplist
  | .javaScript => JavaScript.stoplist
  | .swift => Swift.stoplist

/-- The number of branches in masked text. -/
def countBranches : Language → List Char → Nat
  | .python => Python.countBranches
  | .javaScript => JavaScript.countBranches
  | .swift => Swift.countBranches

def spanStyle : Language → SpanStyle
  | .python => .indentation
  | _ => .braces

end Language

end CodeSurvey
