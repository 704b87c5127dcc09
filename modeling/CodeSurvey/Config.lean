import CodeSurvey.Json.Reader
import CodeSurvey.Json.Record

/-!
# Configuration
-/
namespace CodeSurvey

structure Config where
  root : String
  /-- The number of workers; zero stands for one on every core. -/
  jobs : Nat
  /-- Longer files are skipped; zero stands for no limit. -/
  maxFileSize : Nat
  /-- Only so many lines of a file are read; zero stands for no limit. -/
  maxLines : Nat
  testMarker : String
  excludeNames : List String
  deriving DecidableEq, Repr

namespace Config

/-- The name of the store that lies in the tree itself. -/
def cacheFileName : String :=
  ".codeatlas-cache.json"

def default : Config where
  root := ""
  jobs := 0
  maxFileSize := 1000000
  maxLines := 0
  testMarker := "test"
  excludeNames := [".git", "node_modules", "__pycache__", ".vscode", ".idea", "dist", "build",
    ".mypy_cache", ".pytest_cache", ".tox", ".venv", "venv", cacheFileName]

def toJson (c : Config) : Json :=
  .obj [("root", .str c.root), ("jobs", .ofNat c.jobs), ("maxFileSize", .ofNat c.maxFileSize),
    ("maxLines", .ofNat c.maxLines), ("testMarker", .str c.testMarker),
    ("excludeNames", .strings c.excludeNames)]

def ofJson? (j : Json) : Option Config := do
  let fs ← j.fields? ["root", "jobs", "maxFileSize", "maxLines", "testMarker", "excludeNames"]
  return {
    root := ← Json.defaulted fs "root" default.root Json.str?
    jobs := ← Json.defaulted fs "jobs" default.jobs Json.nat?
    maxFileSize := ← Json.defaulted fs "maxFileSize" default.maxFileSize Json.nat?
    maxLines := ← Json.defaulted fs "maxLines" default.maxLines Json.nat?
    testMarker := ← Json.defaulted fs "testMarker" default.testMarker Json.str?
    excludeNames := ← Json.defaulted fs "excludeNames" default.excludeNames (Json.list? Json.str?) }

def parse? (text : String) : Option Config :=
  (Json.parse? text).bind ofJson?

end Config

end CodeSurvey
