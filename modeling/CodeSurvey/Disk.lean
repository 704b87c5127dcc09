import CodeSurvey.Host

/-!
# Disks

A host in memory: a tree, and the folder in which paths start that do not start at the root.
-/
namespace CodeSurvey

structure Disk where
  root : FileTree
  current : List FileName

namespace Disk

/-- The names of a path. A single dot stands for the folder itself, also where nothing stands
between or after slashes. -/
def names (path : String) : List FileName :=
  (path.toList.splitOn '/').map fun s => .ofString (if s.isEmpty then "." else String.ofList s)

def isAbsolute (path : String) : Bool :=
  path.toList.head? == some '/'

/-- How many links a path may lead through. -/
def maxLinks : Nat := 40

/-- Follows names from the place `here`. The last one need not exist. -/
def follow (root : FileTree) (links : Nat) (here todo : List FileName) :
    Except DiskFault (List FileName) :=
  match todo with
  | [] => .ok here
  | name :: rest =>
    match root.at? here with
    | none => .error .missing
    | some (.closed fault) => .error fault
    | some (.folder _) =>
      if name = "." then follow root links here rest
      else if name = ".." then follow root links here.dropLast rest
      else
        match root.at? (here ++ [name]) with
        | none => if rest.isEmpty then .ok (here ++ [name]) else .error .missing
        | some (.link target) =>
          match links with
          | 0 => .error .tooManyLinks
          | links + 1 =>
            follow root links (if isAbsolute target then [] else here) (names target ++ rest)
        | some _ => follow root links (here ++ [name]) rest
    | some _ => .error .notFolder
termination_by (links, todo.length)

/-- The place that a path leads to. -/
def locate (d : Disk) (path : String) : Except DiskFault (List FileName) :=
  if path = "" then .error .missing
  else follow d.root maxLinks (if isAbsolute path then [] else d.current) (names path)

/-- What a path leads to. -/
def find (d : Disk) (path : String) : Except DiskFault (List FileName × FileTree) :=
  match d.locate path with
  | .error fault => .error fault
  | .ok place =>
    match d.root.at? place with
    | some t => .ok (place, t)
    | none => .error .missing

def read (d : Disk) (path : String) : Except DiskFault ByteArray :=
  match d.find path with
  | .ok (_, .file data) => data.content
  | .ok (_, .unknown fault) | .ok (_, .lost fault) => .error fault
  | .ok _ => .error .isFolder
  | .error fault => .error fault

def write (d : Disk) (path : String) (bytes : ByteArray) : Except DiskFault Disk :=
  match d.locate path with
  | .error fault => .error fault
  | .ok place =>
    if (d.root.at? place).any FileTree.isFolder then .error .isFolder
    else .ok { d with root := d.root.set place (.ofBytes bytes) }

/-- Creates a folder in a folder that exists. -/
def makeFolder (d : Disk) (path : String) : Except DiskFault Disk :=
  match d.locate path with
  | .error fault => .error fault
  | .ok place =>
    match d.root.at? place with
    | none => .ok { d with root := d.root.set place (.folder []) }
    | some (.folder _) | some (.closed _) => .ok d
    | some _ => .error .notFolder

/-- The path and all paths that lead to it, the shortest first. -/
def pathsTo (path : String) : List String :=
  let parts := (path.toList.splitOn '/').map String.ofList
  ((List.range parts.length).map fun n => "/".intercalate (parts.take (n + 1))).filter (· != "")

def makeFolders (d : Disk) (path : String) : Except DiskFault Disk :=
  (pathsTo path).foldlM makeFolder d

/-- Where the entry itself lies that a path names, be it a link or not. -/
def locateEntry (d : Disk) (path : String) : Except DiskFault (List FileName) :=
  match (names path).getLast? with
  | none => .error .missing
  | some name =>
    if name = "." || name = ".." then .error .isFolder
    else
      let folder := "/".intercalate ("." :: (names path).dropLast.map FileName.text)
      let start := if isAbsolute path then "/" ++ folder else folder
      (d.locate start).map (· ++ [name])

/-- Removes a file or a folder with all that it holds. -/
def remove (d : Disk) (path : String) : Except DiskFault Disk :=
  (d.locateEntry path).map fun place => { d with root := d.root.erase place }

/-- Puts a link in a folder that exists. -/
def link (d : Disk) (path target : String) : Except DiskFault Disk :=
  (d.locateEntry path).map fun place => { d with root := d.root.set place (.link target) }

def rename (d : Disk) (source target : String) : Except DiskFault Disk := do
  let bytes ← d.read source
  let place ← d.locateEntry target
  if (d.root.at? place).any FileTree.isFolder then .error .isFolder
  else
    let d ← d.remove source
    return { d with root := d.root.set place (.ofBytes bytes) }

def canonical? (d : Disk) (path : String) : Option String :=
  (d.find path).toOption.map fun (place, _) => "/" ++ "/".intercalate (place.map FileName.text)

def change (f : Disk → Except DiskFault Disk) : StateM Disk (Except DiskFault Unit) := do
  match f (← get) with
  | .ok d =>
    set d
    return .ok ()
  | .error fault => return .error fault

/-- The disk as a host on which the time stands still. Its trees are whole. -/
def host (now : String) : Host (StateM Disk) where
  tree _ path := return ((← get).find path).map Prod.snd
  startWorkers _ := return .ok ()
  read path := return (← get).read path
  write path bytes := change (·.write path bytes)
  makeFolders path := change (·.makeFolders path)
  rename source target := change (·.rename source target)
  canonical? path := return (← get).canonical? path
  now := return now
  clock := return 0.0
  compute f := return f ()

end Disk

end CodeSurvey
