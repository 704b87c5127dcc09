/-!
# Paths of files

Paths inside a source tree, with a slash between their segments.
-/
namespace CodeSurvey.TreePath

/-- The segments that name something; empty ones and single dots do not. -/
def segments (path : String) : List String :=
  ((path.toList.splitOn '/').map String.ofList).filter fun s => s != "" && s != "."

/-- The last segment, unless it leads upwards. -/
def fileName? (path : String) : Option String :=
  (segments path).getLast?.filter (· != "..")

/-- The path without its last segment; nothing is above a single segment. -/
def parent (path : String) : String :=
  let root := if path.toList.head? == some '/' then "/" else ""
  root ++ "/".intercalate (segments path).dropLast

/-- The path of something in a folder. -/
def join (folder name : String) : String :=
  if folder = "" then name
  else if folder.toList.getLast? == some '/' then folder ++ name
  else folder ++ "/" ++ name

/-- What follows the last dot of the file name. A dot at its very start begins no extension. -/
def extension? (path : String) : Option String :=
  match fileName? path with
  | none => none
  | some name =>
    let reversed := name.toList.reverse
    let last := reversed.takeWhile (· != '.')
    match reversed.drop last.length with
    | [] => none
    | [_] => none
    | _ => some (String.ofList last.reverse)

/-- Compares an extension without regard to the case of ASCII letters. -/
def hasExtension (path extension : String) : Bool :=
  (extension? path).any fun e => e.toList.map Char.toLower == extension.toList

end CodeSurvey.TreePath
