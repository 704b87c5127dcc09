import CodeSurvey.Command.Run
import Std.Time

/-!
# The program

The command line on the machine itself.
-/
open CodeSurvey

namespace CodeSurvey.Program

def faultOf : IO.Error → DiskFault
  | .noFileOrDirectory .. => .missing
  | e => .other (toString e)

def attempt {α : Type} (action : IO α) : IO (Except DiskFault α) := do
  match ← action.toBaseIO with
  | .ok a => return .ok a
  | .error e => return .error (faultOf e)

/-- Reads what the entries of a folder hold. What cannot be read stays in its place as a fault. -/
partial def load (skip : String → Bool) (entries : Array IO.FS.DirEntry) :
    IO (List (FileName × FileTree)) := do
  let kept := entries.toList.filter (!skip ·.fileName)
  let loaded ← kept.mapM fun e => do
    match ← attempt e.path.symlinkMetadata with
    | .error fault => return some (.ofString e.fileName, .unknown fault)
    | .ok info =>
      match info.type with
      | .dir =>
        match ← attempt e.path.readDir with
        | .error fault => return some (.ofString e.fileName, .closed fault)
        | .ok below => return some (.ofString e.fileName, .folder (← load skip below))
      | .file =>
        let content ← attempt (IO.FS.readBinFile e.path)
        return some (.ofString e.fileName, .file ⟨.ok info.byteSize.toNat, content⟩)
      | .symlink => return some (.ofString e.fileName, .link "")
      | .other => return none
  return loaded.filterMap id

def loadTree (skip : String → Bool) (path : String) : IO FileTree := do
  let place ← IO.FS.realPath path
  if ← place.isDir then
    match ← attempt place.readDir with
    | .error fault => return .closed fault
    | .ok entries => return .folder (← load skip entries)
  else
    return .file ⟨.ok (← place.metadata).byteSize.toNat, ← attempt (IO.FS.readBinFile place)⟩

def timeText : IO String := do
  let moment := Std.Time.DateTime.ofTimestamp (← Std.Time.Timestamp.now) .UTC
  return moment.format "uuuu-MM-dd'T'HH:mm:ss.SSSSSSSSSxxx"

def host : Host IO where
  tree skip path := attempt (loadTree skip path)
  startWorkers _ := return .ok ()
  read path := attempt (IO.FS.readBinFile path)
  write path bytes := attempt (IO.FS.writeBinFile path bytes)
  makeFolders path := attempt (IO.FS.createDirAll path)
  rename source target := attempt (IO.FS.rename source target)
  canonical? path := return (← attempt (IO.FS.realPath path)).toOption.map toString
  now := timeText
  clock := return Float.ofNat (← IO.monoNanosNow) / 1e9
  compute f := IO.lazyPure f

end CodeSurvey.Program

def main (arguments : List String) : IO UInt32 := do
  let outcome ← Command.run Program.host arguments
  for line in outcome.lines do
    IO.println line
  if let some text := outcome.errorText? then
    IO.eprintln text
  return outcome.exitCode.toUInt32
