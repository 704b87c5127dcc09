import CodeSurvey.Pattern

/-!
# Documentation comments

Finding the comment or docstring that belongs to a declaration or to a whole file, and cutting it
down to its first paragraph.
-/
namespace CodeSurvey.Doc

/-- Number of characters kept of what a function is for. -/
def functionBudget : Nat := 100

/-- Number of characters kept of what a file is for. -/
def fileBudget : Nat := 200

/-- A text longer than the budget is cut, and three dots, which count, mark the cut. -/
def truncate (budget : Nat) (cs : List Char) : List Char :=
  if cs.length ≤ budget then cs
  else Text.trimEnd (cs.take (budget - 3)) ++ "...".toList

private def paragraph? (budget : Nat) (parts : List (List Char)) : Option String :=
  if parts.isEmpty then none
  else some (String.ofList (truncate budget (Text.joined " " parts)))

/-- The first paragraph of a comment; a line that starts with an at sign ends it. -/
def summarize? (budget : Nat) (lines : List (List Char)) : Option String :=
  paragraph? budget <|
    ((lines.map Text.trim).dropWhile List.isEmpty).takeWhile fun line =>
      !line.isEmpty && line.head? != some '@'

open Pattern in
/-- A line that holds nothing but the title of a docstring section. -/
def sectionTitle : Pattern :=
  anyOf ["Args", "Arguments", "Parameters", "Params", "Returns", "Return", "Raises", "Yields",
    "Examples", "Example", "Notes", "Note", "Attributes", "Todo"] ++ one ':' ++ gap ++ textEnd

def isSectionTitle (line : List Char) : Bool :=
  (sectionTitle.matchHead? line).isSome

/-- A field, a tag, an interpreter prompt or a section title ends the description. -/
def endsDescription (line : List Char) : Bool :=
  line.head? == some ':' || line.head? == some '@' || ">>>".toList.isPrefixOf line ||
    isSectionTitle line

private def sentenceLines : List (List Char) → List (List Char)
  | [] => []
  | line :: rest =>
    if line.isEmpty || endsDescription line then []
    else if line.getLast? == some '.' then [line]
    else line :: sentenceLines rest

/-- The first paragraph of a docstring, up to the first line that ends with a full stop. -/
def docstringSummary? (budget : Nat) (body : List Char) : Option String :=
  paragraph? budget <|
    sentenceLines (((Text.lines body).map Text.trim).dropWhile List.isEmpty)

/-- The lines of a docstring up to the closing quotes; `j` is the number of the next line. -/
private def docstringRest? (quotes : List Char) (j : Nat) (body : List (List Char)) :
    List (List Char) → Option (List Char × Nat)
  | [] => none
  | line :: rest =>
    match Text.cut? quotes line with
    | some (head, _) => some (Text.joined "\n" (body ++ [Text.trim head]), j)
    | none => docstringRest? quotes (j + 1) (body ++ [Text.trim line]) rest

/-- The docstring that starts on a line: its trimmed lines, and the line on which it closes. -/
def docstringAt? (lines : List (List Char)) (start : Nat) : Option (List Char × Nat) :=
  match lines.drop start with
  | [] => none
  | line :: rest =>
    let opened := (Text.trimStart line).dropWhile "rRuUbB".toList.contains
    let quotes := opened.take 3
    if quotes = "\"\"\"".toList || quotes = "'''".toList then
      let body := opened.drop 3
      match Text.cut? quotes body with
      | some (head, _) => some (Text.trim head, start)
      | none => docstringRest? quotes (start + 1) [Text.trim body] rest
    else none

/-- The docstring on the first line after `line` that is not blank. -/
def docstringAfter? (lines : List (List Char)) (line : Nat) : Option (List Char) :=
  let blanks := (lines.drop (line + 1)).takeWhile Text.isBlankLine
  (docstringAt? lines (line + 1 + blanks.length)).map Prod.fst

/-- The lines above a line, trimmed, the nearest one first. -/
private def above (lines : List (List Char)) (line : Nat) : List (List Char) :=
  ((lines.take line).map Text.trim).reverse

/-- The text of a comment line without the characters that mark it. -/
private def unmarked (marker : Char) (line : List Char) : List Char :=
  Text.trim (line.dropWhile (· == marker))

/-- The line comments directly above a line. Lines that `skip` accepts may stand between. -/
def lineCommentBefore? (marker : List Char) (skip : List Char → Bool) (lines : List (List Char))
    (line : Nat) : Option (List (List Char)) :=
  match marker with
  | [] => none
  | m :: _ =>
    let comments := ((above lines line).dropWhile skip).takeWhile marker.isPrefixOf
    if comments.isEmpty then none else some (comments.map (unmarked m)).reverse

/-- The lines of a documentation block, found upwards from its last line. -/
private def blockLines? (found : List (List Char)) : List (List Char) → Option (List (List Char))
  | [] => none
  | line :: rest =>
    if Text.hasSub "/**".toList line then some (line :: found)
    else if Text.hasSub "/*".toList line then none
    else blockLines? (line :: found) rest

private def cleanBlockLine (line : List Char) : List Char :=
  unmarked '*' (Text.trim (Text.dropTail "*/".toList (Text.dropHead "/**".toList line)))

/-- The documentation block that ends directly above a line, without its decoration. Lines that
`skip` accepts may stand between. -/
def blockBefore? (skip : List Char → Bool) (lines : List (List Char)) (line : Nat) :
    Option (List (List Char)) :=
  let rest := (above lines line).dropWhile skip
  match rest.head? with
  | none => none
  | some last =>
    if "*/".toList.isSuffixOf last then (blockLines? [] rest).map (·.map cleanBlockLine)
    else none

/-- The lines of a block comment at the top of a file, up to the one that closes it. -/
private def leadingBlock (opener closer : List Char) : List (List Char) → List (List Char)
  | [] => []
  | line :: rest =>
    let body := unmarked '*' (Text.trim (Text.before closer (Text.dropHead opener line)))
    if Text.hasSub closer line then [body] else body :: leadingBlock opener closer rest

/-- What the comment at the top of a file says. Blank lines and interpreter lines may precede it. -/
def leadingComment? (marker : List Char) (block : Option (List Char × List Char))
    (lines : List (List Char)) : Option String :=
  let lines := (lines.map Text.trim).dropWhile fun line =>
    line.isEmpty || "#!".toList.isPrefixOf line
  match block.filter fun b => (lines.head?).any b.1.isPrefixOf with
  | some (opener, closer) => summarize? fileBudget (leadingBlock opener closer lines)
  | none =>
    match marker with
    | [] => none
    | m :: _ => summarize? fileBudget ((lines.takeWhile marker.isPrefixOf).map (unmarked m))

end CodeSurvey.Doc
