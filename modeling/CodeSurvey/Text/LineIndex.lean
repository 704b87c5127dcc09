import CodeSurvey.Text.Basic

/-!
# Lines by offset

From a byte offset to the number of its line, counted from zero, and back.
-/
namespace CodeSurvey.Text

def startsFrom (offset : Nat) : List Char → List Nat
  | [] => []
  | c :: cs =>
    let offset := offset + c.utf8Size
    if c == '\n' then offset :: startsFrom offset cs else startsFrom offset cs

structure LineIndex where
  /-- Where each line starts, in ascending order. -/
  starts : List Nat

namespace LineIndex

def ofText (cs : List Char) : LineIndex :=
  ⟨0 :: startsFrom 0 cs⟩

/-- The line that holds the byte at `offset`; past the end it is the last line. -/
def lineOf (index : LineIndex) (offset : Nat) : Nat :=
  (index.starts.filter (· ≤ offset)).length - 1

def lineStart? (index : LineIndex) (line : Nat) : Option Nat :=
  index.starts[line]?

end LineIndex

end CodeSurvey.Text
