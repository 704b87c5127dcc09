import CodeSurvey.Declaration
import CodeSurvey.Table

/-!
# Symbol table

The functions of all files, by file and by simple name, each in the order of addition.
-/
namespace CodeSurvey

/-- What is known of a function across files. -/
structure Definition where
  id : String
  file : String
  name : String
  simpleName : String
  owner : Option String
  scope : ScopeKind
  line : Nat
  deriving DecidableEq, Repr

namespace Definition

/-- The name of a function in the whole tree. -/
def idOf (file name : String) : String :=
  file ++ "::" ++ name

def ofDeclaration (file : String) (d : Declaration) : Definition :=
  { id := idOf file d.name
    file
    name := d.name
    simpleName := d.simpleName
    owner := d.owner?
    scope := d.scope
    line := d.line }

end Definition

structure SymbolTable where
  byFile : Table (List Definition)
  byName : Table (List Definition)
  deriving Repr

namespace SymbolTable

def empty : SymbolTable :=
  ⟨[], []⟩

def add (t : SymbolTable) (file : String) (d : Declaration) : SymbolTable :=
  let definition := Definition.ofDeclaration file d
  { byFile := t.byFile.modify file [] (· ++ [definition])
    byName := t.byName.modify definition.simpleName [] (· ++ [definition]) }

def addFile (t : SymbolTable) (file : String) (ds : List Declaration) : SymbolTable :=
  ds.foldl (·.add file ·) t

def inFile (t : SymbolTable) (file : String) : List Definition :=
  (t.byFile.get? file).getD []

/-- The definitions of a simple name in a file. -/
def lookupInFile (t : SymbolTable) (file simpleName : String) : List Definition :=
  (t.inFile file).filter (·.simpleName == simpleName)

/-- The definitions of a simple name in all files. -/
def lookup (t : SymbolTable) (simpleName : String) : List Definition :=
  (t.byName.get? simpleName).getD []

def size (t : SymbolTable) : Nat :=
  t.byFile.foldr (fun e n => e.2.length + n) 0

/-- What a call of `token` in a file means: a function of the caller's own type, or else one without
a type, or else any of the file; only if the file has none, the first one of the tree. -/
def resolveCall? (t : SymbolTable) (file : String) (caller : Definition) (token : String) :
    Option Definition :=
  let here := t.lookupInFile file token
  ((here.find? (·.owner == caller.owner)).or <|
    (here.find? (·.owner == none)).or here.head?).or (t.lookup token).head?

end SymbolTable

end CodeSurvey
