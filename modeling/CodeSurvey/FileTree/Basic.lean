import CodeSurvey.Text.Utf8

/-!
# File trees

Files, folders and symbolic links under their names, and what of them is out of reach. A name is a
row of bytes, of which only a part need be text.
-/
namespace CodeSurvey

/-- Why something on a disk cannot be used. -/
inductive DiskFault where
  | missing
  | notFolder
  | isFolder
  | tooManyLinks
  | invalidText
  | other (message : String)
  deriving DecidableEq, Repr

namespace DiskFault

def message : DiskFault → String
  | .missing => "No such file or directory (os error 2)"
  | .notFolder => "Not a directory (os error 20)"
  | .isFolder => "Is a directory (os error 21)"
  | .tooManyLinks => "Too many levels of symbolic links (os error 40)"
  | .invalidText => "stream did not contain valid UTF-8"
  | .other message => message

end DiskFault

structure FileName where
  bytes : List UInt8
  deriving DecidableEq, Repr

namespace FileName

def ofString (s : String) : FileName :=
  ⟨s.toList.flatMap String.utf8EncodeChar⟩

instance : Coe String FileName :=
  ⟨ofString⟩

/-- The name as it is shown, with replacements for what is not text. -/
def chars (name : FileName) : List Char :=
  Text.Utf8.decode name.bytes

def text (name : FileName) : String :=
  String.ofList name.chars

/-- Names in the order of their bytes. -/
def before (a b : FileName) : Bool :=
  List.lex a.bytes b.bytes fun x y => x.toNat < y.toNat

end FileName

/-- What a disk tells of a regular file. -/
structure FileData where
  size : Except DiskFault Nat
  content : Except DiskFault ByteArray

inductive FileTree where
  | file (data : FileData)
  | folder (entries : List (FileName × FileTree))
  | link (target : String)
  /-- A folder whose entries cannot be listed. -/
  | closed (fault : DiskFault)
  /-- An entry whose kind cannot be told. -/
  | unknown (fault : DiskFault)
  /-- A place in a folder where not even a name can be read; the one it stands under means
  nothing. -/
  | lost (fault : DiskFault)

namespace FileTree

/-- A file that can be read. -/
def ofBytes (bytes : ByteArray) : FileTree :=
  .file ⟨.ok bytes.size, .ok bytes⟩

def isFolder : FileTree → Bool
  | .folder _ | .closed _ => true
  | _ => false

def child? (name : FileName) : FileTree → Option FileTree
  | .folder entries => entries.lookup name
  | _ => none

/-- What stands at a path; links are not followed. -/
def at? : List FileName → FileTree → Option FileTree
  | [], t => some t
  | name :: rest, t => (t.child? name).bind (at? rest)

/-- Puts a tree under a name, in the place of what stood there. -/
def insertEntry (name : FileName) (child : FileTree) :
    List (FileName × FileTree) → List (FileName × FileTree)
  | [] => [(name, child)]
  | (n, t) :: rest =>
    if name.before n then (name, child) :: (n, t) :: rest
    else if name = n then (name, child) :: rest
    else (n, t) :: insertEntry name child rest

def setChild (t : FileTree) (name : FileName) (child : FileTree) : FileTree :=
  match t with
  | .folder entries => .folder (insertEntry name child entries)
  | t => t

/-- Puts a tree at a path whose folder exists. -/
def set (t : FileTree) (path : List FileName) (new : FileTree) : FileTree :=
  match path with
  | [] => new
  | [name] => t.setChild name new
  | name :: rest =>
    match t.child? name with
    | some child => t.setChild name (set child rest new)
    | none => t

/-- Removes what stands at a path. -/
def erase (t : FileTree) (path : List FileName) : FileTree :=
  match path, t with
  | [], t => t
  | [name], .folder entries => .folder (entries.filter (·.1 != name))
  | name :: rest, t =>
    match t.child? name with
    | some child => t.setChild name (erase child rest)
    | none => t

end FileTree

end CodeSurvey
