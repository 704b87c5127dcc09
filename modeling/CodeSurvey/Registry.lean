import CodeSurvey.Language
import CodeSurvey.Table

/-!
# Registry of extensions

Which language reads the files with a given extension, and what it extracts from them.
-/
namespace CodeSurvey

structure Registration where
  language : Language
  capabilities : Capabilities
  deriving DecidableEq, Repr

/-- Registrations by normalised extension. -/
structure Registry where
  entries : Table Registration
  /-- The files, by path and text, whose reading breaks down. -/
  breaksOn : String → List Char → Bool

namespace Registry

/-- An extension without leading dots, in small ASCII letters. -/
def normalize (extension : String) : String :=
  String.ofList (Text.lower (extension.toList.dropWhile (· == '.')))

def empty : Registry :=
  ⟨[], fun _ _ => false⟩

/-- Registers a language for an extension; an earlier registration is replaced. -/
def register (r : Registry) (extension : String) (language : Language)
    (capabilities : Capabilities) : Registry :=
  { r with entries := r.entries.insert (normalize extension) ⟨language, capabilities⟩ }

def registerLanguage (r : Registry) (language : Language) : Registry :=
  language.extensions.foldl
    (fun r extension => r.register extension language (language.capabilities extension)) r

/-- Every language under its own extensions. Their reading never breaks down. -/
def builtin : Registry :=
  Language.all.foldl registerLanguage empty

def get? (r : Registry) (extension : String) : Option Registration :=
  r.entries.get? (normalize extension)

/-- The registration for a path, by its extension. -/
def forPath? (r : Registry) (path : String) : Option Registration :=
  (TreePath.extension? path).bind r.get?

end Registry

end CodeSurvey
