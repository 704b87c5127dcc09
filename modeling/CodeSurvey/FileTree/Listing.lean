import CodeSurvey.TreePath
import CodeSurvey.Warning

/-!
# Listings

The files of a tree that a survey looks at, in the order of their paths. What a walk of the tree
cannot look at costs a warning.
-/
namespace CodeSurvey

structure FoundFile where
  path : String
  size : Nat
  content : Except DiskFault ByteArray

namespace FileTree

/-- Hidden folders are left out, hidden files are not. What cannot be looked at is not asked for its
name. -/
def isSkipped (excluded : List String) (name : FileName) : FileTree → Bool
  | .unknown _ | .lost _ => false
  | t => excluded.contains name.text || (t.isFolder && name.chars.head? == some '.')

/-- What a walk comes upon, under the names that lead there. -/
inductive Visit where
  | file (names : List FileName) (data : FileData)
  | blocked (names : Option (List FileName)) (fault : DiskFault)

namespace Visit

/-- The same in a folder of that name. -/
def below (name : FileName) : Visit → Visit
  | .file names data => .file (name :: names) data
  | .blocked names fault => .blocked (names.map (name :: ·)) fault

end Visit

mutual

/-- Walks a tree. Links are not followed. -/
def walk (excluded : List String) : FileTree → List Visit
  | .file data => [.file [] data]
  | .folder entries => walkIn excluded entries
  | .link _ => []
  | .closed fault | .unknown fault => [.blocked (some []) fault]
  | .lost fault => [.blocked none fault]

def walkEntry (excluded : List String) : FileName × FileTree → List Visit
  | (name, t) =>
    if t.isSkipped excluded name then [] else (walk excluded t).map (Visit.below name)

/-- Walks the entries of a folder. -/
def walkIn (excluded : List String) : List (FileName × FileTree) → List Visit
  | [] => []
  | entry :: rest => walkEntry excluded entry ++ walkIn excluded rest

end

/-- The bytes of the names, with a slash between them. -/
def joinNames (names : List FileName) : List UInt8 :=
  [0x2F].intercalate (names.map FileName.bytes)

/-- The divider that a character of a name counts as. -/
def asDivider (c : Char) : Char :=
  if c == '\\' then '/' else c

/-- The path of a file as it is shown, where a backslash in a name counts as a divider. -/
def relativePath (names : List FileName) : String :=
  String.ofList ((Text.Utf8.decode (joinNames names)).map asDivider)

/-- The place that names lead to from the root of a walk, as it is shown. -/
def placeFrom (root : String) (names : List FileName) : String :=
  TreePath.join root (String.ofList (Text.Utf8.decode (joinNames names)))

namespace Visit

/-- A file is listed if its size is known. -/
def found? : Visit → Option FoundFile
  | .file names ⟨.ok size, content⟩ => some ⟨relativePath names, size, content⟩
  | _ => none

def warning? (root : String) : Visit → Option Warning
  | .file _ ⟨.ok _, _⟩ => none
  | .file names ⟨.error fault, _⟩ =>
    some (.sizeUnknown (relativePath names) ⟨some (placeFrom root names), fault⟩)
  | .blocked names fault =>
    some (.unlisted (names.map relativePath) ⟨names.map (placeFrom root), fault⟩)

end Visit

structure Listing where
  files : List FoundFile
  warnings : List Warning

/-- The files of a folder in ascending order of their paths, and what could not be listed. -/
def listing (root : String) (excluded : List String) (entries : List (FileName × FileTree)) :
    Listing :=
  let visits := walkIn excluded entries
  { files := (visits.filterMap Visit.found?).mergeSort fun a b => a.path ≤ b.path
    warnings := visits.filterMap (Visit.warning? root) }

end FileTree

end CodeSurvey
