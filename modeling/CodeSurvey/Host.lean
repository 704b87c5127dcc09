import CodeSurvey.FileTree.Basic

/-!
# Hosts

What a command asks of the machine that it runs on: files by their paths, workers, and the time.
-/
namespace CodeSurvey

structure Host (m : Type → Type) where
  /-- The tree at a path, with everything below it but what lies under names to be skipped. -/
  tree : (String → Bool) → String → m (Except DiskFault FileTree)
  /-- Starts so many workers; zero stands for one on every core. -/
  startWorkers : Nat → m (Except String Unit)
  read : String → m (Except DiskFault ByteArray)
  /-- Replaces or creates a file. -/
  write : String → ByteArray → m (Except DiskFault Unit)
  /-- Creates a folder and the folders above it, unless they exist. -/
  makeFolders : String → m (Except DiskFault Unit)
  /-- Moves a file, in the place of another one if there is one. -/
  rename : String → String → m (Except DiskFault Unit)
  /-- The path from the root without dots and links, of something that exists. -/
  canonical? : String → m (Option String)
  now : m String
  /-- A clock in seconds. -/
  clock : m Float
  /-- Computes a value before the clock is read again. -/
  compute : {α : Type} → (Unit → α) → m α

end CodeSurvey
