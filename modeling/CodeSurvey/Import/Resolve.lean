import CodeSurvey.Language

/-!
# Resolving imports

An import token stands for a list of bases that does not depend on the tree. Each base is tried with
every suffix of the language, and the first form that is a file of the tree is what the token means.
-/
namespace CodeSurvey.Import

/-- The path up to its last slash, or nothing. -/
def parentDir (path : String) : String :=
  match path.toList.reverse.dropWhile (· != '/') with
  | [] => ""
  | _ :: rest => String.ofList rest.reverse

def join (dir rest : String) : String :=
  if dir = "" then rest else if rest = "" then dir else dir ++ "/" ++ rest

def segments (path : String) : List String :=
  (path.toList.splitOn '/').map String.ofList

def ofSegments (parts : List String) : String :=
  "/".intercalate parts

/-- Reads one more segment; `parts` holds the ones before, the last first. -/
def pushSegment (parts : List String) (segment : String) : Option (List String) :=
  if segment = "" || segment = "." then some parts
  else if segment = ".." then
    match parts with
    | [] => none
    | _ :: rest => some rest
  else some (segment :: parts)

/-- The path without empty segments, dots and double dots; none if it climbs above the root. -/
def normalize? (path : String) : Option String :=
  ((segments path).foldlM pushSegment []).map fun parts => ofSegments parts.reverse

/-- The directory names under which projects keep their sources. -/
def sourceRoots : List String :=
  ["src", "lib", "app", "pkg"]

/-- The deepest directory on the way down to `dir`, itself included, that is named like a source
root. -/
def sourceRoot? (dir : String) : Option String :=
  let parts := segments dir
  let prefixes := (List.range parts.length).reverse.map fun n => parts.take (n + 1)
  (prefixes.find? fun p => p.getLast?.any sourceRoots.contains).map ofSegments

/-- Dots become slashes. -/
def undot (token : List Char) : String :=
  String.ofList (token.map fun c => if c == '.' then '/' else c)

/-- Goes up `n` directories, and stays at the root once there. -/
def climb : Nat → String → String
  | 0, dir => dir
  | n + 1, dir => climb n (parentDir dir)

/-- The paths, still without a suffix, that a token written in a file of `dir` may mean, in the
order of trial. -/
def bases (style : ImportStyle) (dir token : String) : List String :=
  let cs := token.toList
  let absolute (module : String) : List String :=
    ([module, join dir module] ++ (sourceRoot? dir).toList.map (join · module)).filterMap normalize?
  match style with
  | .dotted =>
    if cs.head? == some '.' then
      let dots := (cs.takeWhile (· == '.')).length
      [join (climb (dots - 1) dir) (undot (cs.drop dots))]
    else absolute (undot cs)
  | .path =>
    if cs.head? == some '.' then (normalize? (join dir token)).toList
    else if cs.head? == some '/' then
      (normalize? (String.ofList (cs.dropWhile (· == '/')))).toList
    else absolute token

def withSuffix (base suffix : String) : String :=
  if base = "" then String.ofList (suffix.toList.dropWhile (· == '/')) else base ++ suffix

/-- The first form of a base with a suffix that is a file of the tree. -/
def probe? (language : Language) (present : String → Bool) (base : String) : Option String :=
  language.moduleSuffixes.findSome? fun suffix =>
    let candidate := withSuffix base suffix
    if candidate != "" && present candidate then some candidate else none

/-- The file that a token in the file `source` means, where `present` tells the files of the
tree. -/
def resolve? (language : Language) (present : String → Bool) (token source : String) :
    Option String :=
  let token := String.ofList (Text.trim token.toList)
  if token = "" then none
  else (bases language.importStyle (parentDir source) token).findSome? (probe? language present)

end CodeSurvey.Import
