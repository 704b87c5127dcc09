import CodeSurvey.Scope

/-!
# Spans of functions

The lines that a function covers in a masked text, found from the line of its declaration either by
indentation or by braces.
-/
namespace CodeSurvey

/-- The lines from `first` to `last`, both included and counted from zero. -/
structure LineSpan where
  first : Nat
  last : Nat
  deriving DecidableEq, Repr

inductive SpanStyle where
  | indentation
  | braces
  deriving DecidableEq, Repr

namespace LineSpan

/-- Opening parentheses less closing ones. -/
def parenBalance (line : List Char) : Int :=
  line.foldl (fun n c => if c == '(' then n + 1 else if c == ')' then n - 1 else n) 0

/-- The last line of a body whose declaration is indented by `base`; `last` is the last line known
to belong to it and `j` the number of the next one. -/
def indentedEnd (base : Nat) (parens : Int) (j last : Nat) : List (List Char) → Nat
  | [] => last
  | line :: rest =>
    if 0 < parens then indentedEnd base (parens + parenBalance line) (j + 1) j rest
    else if Text.isBlankLine line then indentedEnd base parens (j + 1) last rest
    else if indentWidth line ≤ base then last
    else indentedEnd base parens (j + 1) j rest

/-- The signature goes on while a parenthesis is open; the body is what is indented deeper than the
declaration. Blank lines end no body. -/
def byIndentation? (lines : List (List Char)) (start : Nat) : Option LineSpan :=
  match lines.drop start with
  | [] => none
  | line :: rest =>
    some ⟨start, indentedEnd (indentWidth line) (parenBalance line) (start + 1) start rest⟩

/-- What has been counted on the way to the brace that ends a body. -/
structure BraceWalk where
  parens : Int
  braces : Nat
  opened : Bool
  closed : Bool

namespace BraceWalk

def start : BraceWalk :=
  ⟨0, 0, false, false⟩

/-- Closing braces count once one has been opened; nothing counts after the body has closed. -/
def step (w : BraceWalk) (c : Char) : BraceWalk :=
  if w.closed then w
  else if c == '(' then { w with parens := w.parens + 1 }
  else if c == ')' then { w with parens := w.parens - 1 }
  else if c == '\x7b' then { w with braces := w.braces + 1, opened := true }
  else if c == '\x7d' && w.opened then
    { w with braces := w.braces - 1, closed := w.braces - 1 == 0 }
  else w

end BraceWalk

/-- What may stand between a signature and its opening brace, at the start of a line. -/
def continuations : List (List Char) :=
  ["\x7b", "where", "->", "throws", "rethrows", ":", "=>"].map String.toList

/-- Whether the line has something after its first arrow. -/
def hasArrowBody (line : List Char) : Bool :=
  match Text.cut? ['=', '>'] line with
  | some (_, after) => !Text.isBlankLine after
  | none => false

/-- Whether the first line that is not blank goes on with a signature. -/
def continuesSignature (rest : List (List Char)) : Bool :=
  match (rest.map Text.trim).find? (!·.isEmpty) with
  | some line => continuations.any (·.isPrefixOf line)
  | none => false

/-- The last line of a body; `j` is the number of the next line. A declaration without a body ends
where nothing goes on with its signature, and a body that never closes has no end. -/
def braceEnd? (w : BraceWalk) (j : Nat) : List (List Char) → Option Nat
  | [] => if w.opened then none else some (j - 1)
  | line :: rest =>
    let w := line.foldl BraceWalk.step w
    if w.closed then some j
    else if w.opened || 0 < w.parens then braceEnd? w (j + 1) rest
    else if hasArrowBody line || !continuesSignature rest then some j
    else braceEnd? w (j + 1) rest

def byBraces? (lines : List (List Char)) (start : Nat) : Option LineSpan :=
  match lines.drop start with
  | [] => none
  | rest => (braceEnd? .start start rest).map fun last => ⟨start, last⟩

end LineSpan

/-- The span of the function declared on line `start`. -/
def SpanStyle.span? (style : SpanStyle) (lines : List (List Char)) (start : Nat) :
    Option LineSpan :=
  match style with
  | .indentation => LineSpan.byIndentation? lines start
  | .braces => LineSpan.byBraces? lines start

end CodeSurvey
