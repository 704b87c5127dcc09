/-!
# Texts and byte offsets

A text is a list of characters. Places in it are counted in bytes of its UTF-8 form, so that a place
found in one text can be used in another one of the same layout.
-/
namespace CodeSurvey.Text

/-- Number of bytes of the UTF-8 form. -/
def size (cs : List Char) : Nat :=
  cs.foldr (fun c n => c.utf8Size + n) 0

/-- What follows the first `n` bytes. -/
def dropBytes : Nat → List Char → List Char
  | _, [] => []
  | n, c :: cs => if n = 0 then c :: cs else dropBytes (n - c.utf8Size) cs

/-- What follows the first `n` bytes, if a character ends there. -/
def dropBytes? : Nat → List Char → Option (List Char)
  | 0, cs => some cs
  | _, [] => none
  | n, c :: cs => if c.utf8Size ≤ n then dropBytes? (n - c.utf8Size) cs else none

/-- The first `n` bytes. -/
def takeBytes : Nat → List Char → List Char
  | _, [] => []
  | n, c :: cs => if n = 0 then [] else c :: takeBytes (n - c.utf8Size) cs

/-- The bytes from `start` up to `stop`. -/
def slice (cs : List Char) (start stop : Nat) : List Char :=
  takeBytes (stop - start) (dropBytes start cs)

/-- The text around the first occurrence of `sub`. -/
def cut? (sub : List Char) : List Char → Option (List Char × List Char)
  | [] => if sub.isEmpty then some ([], []) else none
  | c :: cs =>
    if sub.isPrefixOf (c :: cs) then some ([], (c :: cs).drop sub.length)
    else (cut? sub cs).map fun (before, after) => (c :: before, after)

def hasSub (sub cs : List Char) : Bool :=
  (cut? sub cs).isSome

/-- What stands before the first occurrence of `sub`, or the whole text. -/
def before (sub cs : List Char) : List Char :=
  match cut? sub cs with
  | some (head, _) => head
  | none => cs

def stripStart? (head cs : List Char) : Option (List Char) :=
  if head.isPrefixOf cs then some (cs.drop head.length) else none

def stripEnd? (tail cs : List Char) : Option (List Char) :=
  (stripStart? tail.reverse cs.reverse).map List.reverse

/-- Removes `head` when the text starts with it. -/
def dropHead (head cs : List Char) : List Char :=
  (stripStart? head cs).getD cs

/-- Removes `tail` when the text ends with it. -/
def dropTail (tail cs : List Char) : List Char :=
  (stripEnd? tail cs).getD cs

/-- Removes every character of the class from the end. -/
def dropEndWhile (p : Char → Bool) (cs : List Char) : List Char :=
  (cs.reverse.dropWhile p).reverse

/-- The pieces between line feeds; a text without one is a single piece. -/
def pieces (cs : List Char) : List (List Char) :=
  cs.splitOn '\n'

private def linesOfPieces : List (List Char) → List (List Char)
  | [] => []
  | [last] => if last.isEmpty then [] else [last]
  | piece :: rest => dropTail ['\r'] piece :: linesOfPieces rest

/-- The lines of a text: a line feed, with a carriage return before it, ends a line, and nothing
stands after the last one. -/
def lines (cs : List Char) : List (List Char) :=
  linesOfPieces (pieces cs)

/-- Capital ASCII letters become small ones. -/
def lower (cs : List Char) : List Char :=
  cs.map Char.toLower

def joined (sep : String) (parts : List (List Char)) : List Char :=
  sep.toList.intercalate parts

end CodeSurvey.Text
