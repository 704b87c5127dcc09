import CodeSurvey.Extraction

/-!
# Files of a survey

A file whose text has been read, and what was extracted from it.
-/
namespace CodeSurvey

structure SourceFile where
  path : String
  /-- Documents have none. -/
  language : Option String
  /-- The text that was read, cut to the line limit. -/
  content : List Char
  contentHash : String
  wasTruncated : Bool
  deriving DecidableEq, Repr

structure ExtractedFile where
  source : SourceFile
  extraction : Extraction
  patternVersion : Nat
  /-- The extraction was taken from a store and not made anew. -/
  fromCache : Bool
  deriving DecidableEq, Repr

namespace ExtractedFile

def path (f : ExtractedFile) : String :=
  f.source.path

def functions (f : ExtractedFile) : List Declaration :=
  f.extraction.functions

/-- The lines of the masked code of a file. -/
def maskedLines (f : ExtractedFile) (language : Language) : List (List Char) :=
  Text.pieces (mask language.lexis (language.codeView f.path f.source.content))

end ExtractedFile

end CodeSurvey
