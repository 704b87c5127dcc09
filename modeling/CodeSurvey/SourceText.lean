import CodeSurvey.Mask
import CodeSurvey.Text.LineIndex

/-!
# Source texts

A text beside its masked form, both cut into lines.
-/
namespace CodeSurvey

structure SourceText where
  raw : List Char
  masked : List Char
  index : Text.LineIndex
  rawLines : List (List Char)
  maskedLines : List (List Char)

namespace SourceText

def ofText (lexis : Lexis) (raw : List Char) : SourceText :=
  let masked := mask lexis raw
  ⟨raw, masked, .ofText masked, Text.pieces raw, Text.pieces masked⟩

def lineStart (s : SourceText) (line : Nat) : Nat :=
  (s.index.lineStart? line).getD 0

/-- The masked lines with their numbers. -/
def numberedLines (s : SourceText) : List (List Char × Nat) :=
  s.maskedLines.zipIdx

end SourceText

end CodeSurvey
