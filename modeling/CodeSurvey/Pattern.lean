import CodeSurvey.Text.Word

/-!
# Patterns

A pattern is tried at a place of a text. Among several ways to match there, an earlier alternative
comes before a later one and a longer run before a shorter one, and the first way counts. A search
takes the leftmost place at which there is a match.
-/
namespace CodeSurvey

/-- A place in a text: how many bytes precede it, the character just before it, what follows. -/
structure Cursor where
  offset : Nat
  prior : Option Char
  rest : List Char

namespace Cursor

def start (cs : List Char) : Cursor :=
  ⟨0, none, cs⟩

/-- The place after the next character, if that belongs to the class. -/
def step? (accepts : Char → Bool) (c : Cursor) : Option Cursor :=
  match c.rest with
  | [] => none
  | x :: xs => if accepts x then some ⟨c.offset + x.utf8Size, some x, xs⟩ else none

def atLineStart (c : Cursor) : Bool :=
  c.prior.isNone || c.prior == some '\n'

/-- A word character on exactly one side. -/
def atWordEdge (c : Cursor) : Bool :=
  c.prior.any Text.isWord != c.rest.head?.any Text.isWord

/-- The places reached by running through the class, each put in front of `acc`, so that the
longest run comes first. -/
def runs (accepts : Char → Bool) (offset : Nat) : List Char → List Cursor → List Cursor
  | [], acc => acc
  | x :: xs, acc =>
    if accepts x then
      let offset := offset + x.utf8Size
      runs accepts offset xs (⟨offset, some x, xs⟩ :: acc)
    else acc

end Cursor

/-- A stretch of a text. -/
structure Capture where
  start : Cursor
  stop : Cursor

namespace Capture

def offset (c : Capture) : Nat :=
  c.start.offset

def text (c : Capture) : List Char :=
  Text.takeBytes (c.stop.offset - c.start.offset) c.start.rest

def string (c : Capture) : String :=
  String.ofList c.text

end Capture

inductive Pattern where
  | done
  | char (accepts : Char → Bool)
  /-- As many characters of the class as possible. -/
  | run (accepts : Char → Bool)
  /-- As few characters of the class as possible. -/
  | shortRun (accepts : Char → Bool)
  | seq (first second : Pattern)
  | alt (first second : Pattern)
  /-- The body, which is never empty, as often as possible. -/
  | many (body : Pattern)
  | group (name : String) (body : Pattern)
  | textEnd
  | lineStart
  | wordEdge

namespace Pattern

/-- How far a match has come, and the groups it has closed. -/
structure Progress where
  cursor : Cursor
  groups : List (String × Capture)

structure Match where
  whole : Capture
  groups : List (String × Capture)

namespace Match

def group? (m : Match) (name : String) : Option Capture :=
  m.groups.lookup name

/-- The text of a group; a group that took no part has none. -/
def text (m : Match) (name : String) : List Char :=
  (m.group? name).elim [] Capture.text

def string (m : Match) (name : String) : String :=
  String.ofList (m.text name)

end Match

def repeated (body : Progress → List Progress) : Nat → Progress → List Progress
  | 0, s => [s]
  | n + 1, s =>
    ((body s).filter fun t => s.cursor.offset < t.cursor.offset).flatMap (repeated body n) ++ [s]

/-- Every way to match from a place on, the preferred one first. -/
def ways : Pattern → Progress → List Progress
  | .done, s => [s]
  | .char accepts, s =>
    match s.cursor.step? accepts with
    | some c => [{ s with cursor := c }]
    | none => []
  | .run accepts, s =>
    (Cursor.runs accepts s.cursor.offset s.cursor.rest [s.cursor]).map fun c =>
      { s with cursor := c }
  | .shortRun accepts, s =>
    (Cursor.runs accepts s.cursor.offset s.cursor.rest [s.cursor]).reverse.map fun c =>
      { s with cursor := c }
  | .seq first second, s => (ways first s).flatMap (ways second)
  | .alt first second, s => ways first s ++ ways second s
  | .many body, s => repeated (ways body) s.cursor.rest.length s
  | .group name body, s =>
    (ways body s).map fun t => { t with groups := (name, ⟨s.cursor, t.cursor⟩) :: t.groups }
  | .textEnd, s => if s.cursor.rest.isEmpty then [s] else []
  | .lineStart, s => if s.cursor.atLineStart then [s] else []
  | .wordEdge, s => if s.cursor.atWordEdge then [s] else []

def matchAt? (p : Pattern) (c : Cursor) : Option Match :=
  (ways p ⟨c, []⟩).head?.map fun s => ⟨⟨c, s.cursor⟩, s.groups⟩

/-- The match at the very start of the text. -/
def matchHead? (p : Pattern) (cs : List Char) : Option Match :=
  p.matchAt? (Cursor.start cs)

def findFrom (p : Pattern) (offset : Nat) (prior : Option Char) : List Char → Option Match
  | [] => p.matchAt? ⟨offset, prior, []⟩
  | x :: xs =>
    match p.matchAt? ⟨offset, prior, x :: xs⟩ with
    | some m => some m
    | none => findFrom p (offset + x.utf8Size) (some x) xs

/-- The leftmost match. -/
def find? (p : Pattern) (cs : List Char) : Option Match :=
  findFrom p 0 none cs

def occurs (p : Pattern) (cs : List Char) : Bool :=
  (p.find? cs).isSome

def findAllFrom (p : Pattern) (resume offset : Nat) (prior : Option Char) :
    List Char → List Match
  | [] => []
  | x :: xs =>
    let found := if offset < resume then none else p.matchAt? ⟨offset, prior, x :: xs⟩
    match found with
    | some m => m :: findAllFrom p m.whole.stop.offset (offset + x.utf8Size) (some x) xs
    | none => findAllFrom p resume (offset + x.utf8Size) (some x) xs

/-- The leftmost match, then the leftmost one after its end, and so on to the end of the text. -/
def findAll (p : Pattern) (cs : List Char) : List Match :=
  findAllFrom p 0 0 none cs

def count (p : Pattern) (cs : List Char) : Nat :=
  (p.findAll cs).length

instance : Append Pattern :=
  ⟨.seq⟩

instance : OrElse Pattern :=
  ⟨fun p q => .alt p (q ())⟩

def opt (p : Pattern) : Pattern :=
  .alt p .done

def one (c : Char) : Pattern :=
  .char (· == c)

/-- The characters of `s` in order. -/
def lit (s : String) : Pattern :=
  s.toList.foldr (fun c p => .seq (one c) p) .done

/-- Whether `c` is the small ASCII letter `x`, its capital, or a letter that folds to it: the long
s and the Kelvin sign do so outside ASCII. -/
def foldsTo (x c : Char) : Bool :=
  c.toLower == x || (x == 's' && c == '\u017f') || (x == 'k' && c == '\u212a')

/-- The characters of `s`, which are small letters or have no case, in either case. -/
def litFolded (s : String) : Pattern :=
  s.toList.foldr (fun c p => .seq (.char (foldsTo c)) p) .done

/-- The first of the words that fits. -/
def anyOf : List String → Pattern
  | [] => .char fun _ => false
  | [w] => lit w
  | w :: ws => .alt (lit w) (anyOf ws)

/-- One character of the class or more, as many as possible. -/
def run1 (accepts : Char → Bool) : Pattern :=
  .seq (.char accepts) (.run accepts)

/-- One character of the class or more, as few as possible. -/
def shortRun1 (accepts : Char → Bool) : Pattern :=
  .seq (.char accepts) (.shortRun accepts)

/-- White space, perhaps none. -/
def gap : Pattern :=
  .run Text.isBlank

/-- White space, at least one character. -/
def blank : Pattern :=
  run1 Text.isBlank

/-- The spaces and tabs in front of a line. -/
def indent : Pattern :=
  .seq .lineStart (.run fun c => c == ' ' || c == '\t')

/-- A whole word. -/
def word (w : String) : Pattern :=
  .seq .wordEdge (.seq (lit w) .wordEdge)

/-- A keyword with white space after it. -/
def keyword (w : String) : Pattern :=
  .seq (lit w) blank

def quote : Pattern :=
  .char fun c => c == '\'' || c == '"'

end Pattern

end CodeSurvey
