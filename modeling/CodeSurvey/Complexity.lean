import CodeSurvey.SourceFile
import CodeSurvey.SymbolTable

/-!
# Complexity

The number of branches in a function, the risk that comes with it, and a summary over all functions.
-/
namespace CodeSurvey

inductive Risk where
  | low
  | medium
  | high
  deriving DecidableEq, Repr

namespace Risk

def label : Risk → String
  | .low => "low"
  | .medium => "medium"
  | .high => "high"

def ofScore (score : Nat) : Risk :=
  if score ≤ 5 then .low else if score ≤ 10 then .medium else .high

end Risk

structure Complexity where
  complexity : Nat
  risk : Risk
  branches : Nat
  /-- Lines that are not blank. -/
  lines : Nat
  recommendation : String
  deriving DecidableEq, Repr

namespace Complexity

def recommend (score : Nat) : Risk → String
  | .low => "Function is simple and maintainable"
  | .medium => "Consider breaking into smaller functions for better testability"
  | .high =>
    let urgent := if 15 < score then ["HIGH PRIORITY: Refactor immediately"] else []
    "; ".intercalate (urgent ++ ["Break into smaller, single-purpose functions",
      "Extract complex conditions into well-named helper functions",
      "Consider using design patterns (Strategy, State, etc.)"])

/-- The score of masked text: one more than its branches. -/
def ofText (language : Language) (masked : List Char) : Complexity :=
  let branches := language.countBranches masked
  let score := 1 + branches
  let risk := Risk.ofScore score
  { branches, risk
    complexity := score
    lines := ((Text.lines masked).filter (!Text.isBlankLine ·)).length
    recommendation := recommend score risk }

/-- The lines, from the first up to but not including the second, of a function without a span: from
its declaration to the next one, or to the end of the file. -/
def fallbackRange (functions : List Declaration) (line lineCount : Nat) : Nat × Nat :=
  let start := min (line - 1) lineCount
  let later := (functions.map fun f => f.line - 1).filter (start < ·)
  (start, min (later.min?.getD lineCount) lineCount)

/-- The lines of a function. -/
def functionLines (style : SpanStyle) (lines : List (List Char)) (functions : List Declaration)
    (d : Declaration) : List (List Char) :=
  let span := if d.line = 0 then none else style.span? lines (d.line - 1)
  match span with
  | some s => (lines.take (s.last + 1)).drop s.first
  | none =>
    let (start, stop) := fallbackRange functions d.line lines.length
    (lines.take stop).drop start

/-- The scores of the functions of a file. -/
def ofFile (registry : Registry) (f : ExtractedFile) : List (String × Complexity) :=
  match registry.forPath? f.path with
  | none => []
  | some { language, .. } =>
    if f.functions.isEmpty then []
    else
      let lines := f.maskedLines language
      f.functions.map fun d =>
        (Definition.idOf f.path d.name,
          ofText language
            (Text.joined "\n" (functionLines language.spanStyle lines f.functions d)))

def toJson (c : Complexity) : Json :=
  .obj [("complexity", .ofNat c.complexity), ("risk", .str c.risk.label),
    ("branches", .ofNat c.branches), ("lines", .ofNat c.lines),
    ("recommendation", .str c.recommendation)]

structure Summary where
  lowRisk : Nat
  mediumRisk : Nat
  highRisk : Nat
  totalFunctions : Nat
  totalComplexity : Nat

/-- The mean, to two decimal places; zero of nothing. -/
def Summary.average (s : Summary) : Float :=
  if s.totalFunctions = 0 then 0.0
  else
    let mean := Float.ofNat s.totalComplexity / Float.ofNat s.totalFunctions
    (mean * 100.0).round / 100.0

def Summary.toJson (s : Summary) : Json :=
  .obj [("lowRisk", .ofNat s.lowRisk), ("mediumRisk", .ofNat s.mediumRisk),
    ("highRisk", .ofNat s.highRisk), ("totalFunctions", .ofNat s.totalFunctions),
    ("totalComplexity", .ofNat s.totalComplexity), ("avgComplexity", .real s.average)]

structure Report where
  functions : Table Complexity

namespace Report

def ofFiles (registry : Registry) (files : List ExtractedFile) : Report :=
  ⟨Table.ofList (files.flatMap (ofFile registry))⟩

def withRisk (r : Report) (risk : Risk) : Nat :=
  (r.functions.filter fun e => e.2.risk == risk).length

def summary (r : Report) : Summary :=
  { lowRisk := r.withRisk .low
    mediumRisk := r.withRisk .medium
    highRisk := r.withRisk .high
    totalFunctions := r.functions.length
    totalComplexity := r.functions.foldr (fun e n => e.2.complexity + n) 0 }

def toJson (r : Report) : Json :=
  .obj [("functions", .ofTable Complexity.toJson r.functions), ("summary", r.summary.toJson)]

end Report

end Complexity

end CodeSurvey
