import CodeSurvey.Text.Blank

/-!
# Parameter lists

A list is cut at the commas outside brackets, and each part is read as a name, perhaps a type after
a colon, perhaps a default value after an equals sign.
-/
namespace CodeSurvey

structure Parameter where
  name : String
  typeName : Option String
  defaultValue : Option String
  deriving DecidableEq, Repr, Inhabited

namespace Parameter

def named (name : String) : Parameter :=
  ⟨name, none, none⟩

/-- The form used in signatures; the default value is not shown. -/
def render (p : Parameter) : String :=
  match p.typeName with
  | some t => p.name ++ ": " ++ t
  | none => p.name

def opensBracket (angle : Bool) (c : Char) : Bool :=
  c == '(' || c == '[' || c == '\x7b' || (angle && c == '<')

def closesBracket (angle : Bool) (c : Char) : Bool :=
  c == ')' || c == ']' || c == '\x7d' || (angle && c == '>')

/-- A character outside brackets, with its neighbours. -/
structure Mark where
  offset : Nat
  prior : Option Char
  next : Option Char

/-- Whether `c` is the tip of an arrow, which closes no bracket. -/
def isArrowTip (prior : Option Char) (c : Char) : Bool :=
  c == '>' && (prior == some '=' || prior == some '-')

def marksFrom (sep : Char) (angle : Bool) (offset depth : Nat) (prior : Option Char) :
    List Char → List Mark
  | [] => []
  | c :: cs =>
    let after := offset + c.utf8Size
    if isArrowTip prior c then marksFrom sep angle after depth (some c) cs
    else if opensBracket angle c then marksFrom sep angle after (depth + 1) (some c) cs
    else if closesBracket angle c then marksFrom sep angle after (depth - 1) (some c) cs
    else if c == sep && depth == 0 then
      ⟨offset, prior, cs.head?⟩ :: marksFrom sep angle after depth (some c) cs
    else marksFrom sep angle after depth (some c) cs

/-- Every place at which `sep` stands outside brackets. Angle brackets count only when asked for,
as in languages with generics. -/
def marks (sep : Char) (angle : Bool) (text : List Char) : List Mark :=
  marksFrom sep angle 0 0 none text

/-- The pieces of a text between one-byte separators at the given offsets. -/
def piecesAt (text : List Char) (start : Nat) : List Nat → List (List Char)
  | [] => [Text.dropBytes start text]
  | offset :: offsets => Text.slice text start offset :: piecesAt text (offset + 1) offsets

/-- The trimmed parts between commas outside brackets, without the empty ones. -/
def splitTopLevel (angle : Bool) (text : List Char) : List (List Char) :=
  ((piecesAt text 0 ((marks ',' angle text).map Mark.offset)).map Text.trim).filter (!·.isEmpty)

/-- An equals sign that belongs to no comparison and no arrow. -/
def Mark.isAssignment (m : Mark) : Bool :=
  !(m.prior.any fun c => c == '=' || c == '!' || c == '<' || c == '>') &&
    !(m.next.any fun c => c == '=' || c == '>')

def nonEmpty (cs : List Char) : Option String :=
  if cs.isEmpty then none else some (String.ofList cs)

/-- The text before and after the one-byte separator at a mark, both trimmed. Without a mark there
is nothing after the text. -/
def cutAt (cs : List Char) : Option Mark → List Char × List Char
  | some m => (Text.trim (Text.takeBytes m.offset cs), Text.trim (Text.dropBytes (m.offset + 1) cs))
  | none => (cs, [])

/-- Reads one part. A part without a name gives nothing. -/
def parse? (angle : Bool) (part : List Char) : Option Parameter :=
  let part := Text.trim part
  let (head, value) := cutAt part ((marks '=' angle part).find? Mark.isAssignment)
  let (name, typeName) := cutAt head (marks ':' angle head).head?
  let name := Text.trim (Text.dropEndWhile (· == '?') name)
  if name.isEmpty then none
  else some ⟨String.ofList name, nonEmpty typeName, nonEmpty value⟩

/-- Reads a list whose separators are looked for in `masked`, a text of the same layout, so that a
comma or a bracket inside a literal does not count. -/
def parseMasked (angle : Bool) (raw masked : List Char) : List Parameter :=
  (piecesAt raw 0 ((marks ',' angle masked).map Mark.offset)).filterMap fun part =>
    parse? angle (Text.normalizeBlanks part)

def parseList (angle : Bool) (text : List Char) : List Parameter :=
  parseMasked angle text text

end Parameter

/-- Where the last of `depth` open parentheses closes in a text that starts at `offset`. -/
def closeFrom (offset depth : Nat) : List Char → Option Nat
  | [] => none
  | c :: cs =>
    if c == '(' then closeFrom (offset + 1) (depth + 1) cs
    else if c == ')' then
      if depth ≤ 1 then some offset else closeFrom (offset + 1) (depth - 1) cs
    else closeFrom (offset + c.utf8Size) depth cs

/-- The offset of the parenthesis that closes the one at offset `opening`; none if there is no
parenthesis at that place, or no partner. -/
def matchingParen? (text : List Char) (opening : Nat) : Option Nat :=
  match Text.dropBytes? opening text with
  | some ('(' :: rest) => closeFrom (opening + 1) 1 rest
  | _ => none

end CodeSurvey
