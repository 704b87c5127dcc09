import CodeSurvey.Report

/-!
# Summaries

What a scan prints about its report.
-/
namespace CodeSurvey.Command

/-- The text, filled up with blanks to the given number of characters. -/
def padded (width : Nat) (text : String) : String :=
  text ++ String.ofList (List.replicate (width - text.length) ' ')

def row (label value : String) : String :=
  "  " ++ padded 18 label ++ " " ++ value

/-- A duration in milliseconds, with one decimal. -/
def milliseconds (seconds : Float) : String :=
  let tenths := (seconds * 10000.0).round.toUInt64.toNat
  s!"{tenths / 10}.{tenths % 10}ms"

def warningLine (w : Warning) : String :=
  let place := (w.path?.map (· ++ ": ")).getD ""
  "  ! [" ++ w.kind ++ "] " ++ place ++ w.message

def timingLines (timings : List (Phase × Float)) : List String :=
  (Table.ofList (timings.map fun (phase, seconds) => (phase.name, seconds))).map
    fun (name, seconds) => "    " ++ padded 14 name ++ " " ++ milliseconds seconds

/-- The summary of a report, with timings and warnings on demand. -/
def summary (name : String) (report : Report) (stamp : Stamp) (seconds : Float) (verbose : Bool) :
    List String :=
  let importCycles := report.importCycles.length
  let callCycles := report.callCycles.length
  let hits := report.cacheHits
  let misses := report.cacheMisses
  ["", "✓  codeatlas scan: " ++ name,
    row "Files:" (toString report.files.length),
    row "Functions:" (toString report.calls.table.size),
    row "Import edges:" (toString report.imports.resolved.length),
    row "Call edges:" (toString report.calls.edgeCount),
    row "Cache:" s!"{hits} hit / {misses} parsed",
    row "Cycles:" s!"{importCycles} import / {callCycles} call",
    row "Dead functions:" (toString report.dead.length),
    row "High complexity:" (toString report.complexity.summary.highRisk)] ++
  (report.workspaces.map fun w =>
    let count := w.workspaces.length
    let circular := w.circular.length
    row "Workspaces:" s!"{count} ({circular} circular)").toList ++
  (if report.warnings.isEmpty then []
    else [row "Warnings:" (toString report.warnings.length)]) ++
  [row "Duration:" (milliseconds seconds)] ++
  (if verbose then
    ["", "  Phase Timings:"] ++ timingLines stamp.timings ++ report.warnings.map warningLine
  else [])

end CodeSurvey.Command
