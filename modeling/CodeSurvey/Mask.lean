import CodeSurvey.Text.Blank

/-!
# Masked text

Comments and the bodies of string literals are blanked before declarations are looked for. A walk
over the text gives every character its region; masking writes a space for each byte of what is not
code, so that offsets and line breaks stay where they are.
-/
namespace CodeSurvey

/-- How a language writes comments and string literals. -/
structure Lexis where
  lineComment : List Char
  blockComment : Option (List Char × List Char)
  /-- Three quotes delimit a literal that may span lines. -/
  tripleQuotes : Bool
  /-- An apostrophe delimits literals. -/
  singleQuotes : Bool
  /-- A backtick delimits literals that may span lines. -/
  backticks : Bool

/-- What a character of a source text belongs to. The quotes of a literal count as code. -/
inductive Region where
  | code
  | comment
  | literal
  deriving DecidableEq, Repr

namespace Mask

/-- Where the walk stands. -/
inductive Mode where
  | code
  | lineComment
  | blockComment
  | quoted (quote : Char)
  | tripled (quote : Char)
  /-- `n + 1` more characters of a token already seen, then the mode `after`. -/
  | inside (n : Nat) (region : Region) (after : Mode)

/-- The rest of a token whose first character has been read. -/
def Mode.skip (token : List Char) (region : Region) (after : Mode) : Mode :=
  match token.length with
  | n + 2 => .inside n region after
  | _ => after

def opensQuote (lexis : Lexis) (c : Char) : Bool :=
  c == '"' || (c == '\'' && lexis.singleQuotes) || (c == '\x60' && lexis.backticks)

/-- Whether `text` starts with three quotes of one kind. -/
def opensTriple (text : List Char) : Bool :=
  ['"', '"', '"'].isPrefixOf text || ['\'', '\'', '\''].isPrefixOf text

/-- A backslash in a literal hides the next character, unless that ends the line. -/
def afterBackslash (rest : List Char) (mode : Mode) : Mode :=
  match rest with
  | [] => mode
  | c :: _ => if c == '\n' then mode else .inside 0 .literal mode

/-- In code, a line comment is tried first, then a block comment, three quotes, one quote. -/
def stepCode (lexis : Lexis) (c : Char) (rest : List Char) : Region × Mode :=
  if lexis.lineComment.isPrefixOf (c :: rest) then (.comment, .lineComment)
  else
    match lexis.blockComment.filter fun b => b.1.isPrefixOf (c :: rest) with
    | some (opener, _) => (.comment, Mode.skip opener .comment .blockComment)
    | none =>
      if lexis.tripleQuotes && opensTriple (c :: rest) then (.code, .inside 1 .code (.tripled c))
      else if opensQuote lexis c then (.code, .quoted c)
      else (.code, .code)

/-- The region of the character `c`, which `rest` follows, and the mode after it. -/
def step (lexis : Lexis) (mode : Mode) (c : Char) (rest : List Char) : Region × Mode :=
  match mode with
  | .code => stepCode lexis c rest
  | .lineComment => if c == '\n' then (.code, .code) else (.comment, .lineComment)
  | .blockComment =>
    match lexis.blockComment.filter fun b => b.2.isPrefixOf (c :: rest) with
    | some (_, closer) => (.comment, Mode.skip closer .comment .code)
    | none => (.comment, .blockComment)
  | .quoted quote =>
    if c == '\\' then (.literal, afterBackslash rest (.quoted quote))
    else if c == quote then (.code, .code)
    else if c == '\n' && quote != '\x60' then (.literal, .code)
    else (.literal, .quoted quote)
  | .tripled quote =>
    if c == '\\' then (.literal, afterBackslash rest (.tripled quote))
    else if [quote, quote, quote].isPrefixOf (c :: rest) then (.code, .inside 1 .code .code)
    else (.literal, .tripled quote)
  | .inside 0 region after => (region, after)
  | .inside (n + 1) region after => (region, .inside n region after)

/-- The regions of a text, walked from `mode` on. -/
def regions (lexis : Lexis) : Mode → List Char → List (Char × Region)
  | _, [] => []
  | mode, c :: cs =>
    let (region, mode) := step lexis mode c cs
    (c, region) :: regions lexis mode cs

/-- One space for each byte; a line feed stays. -/
def blankOut (c : Char) : List Char :=
  if c == '\n' then [c] else List.replicate c.utf8Size ' '

end Mask

/-- The text with everything blanked that is not code. -/
def mask (lexis : Lexis) (text : List Char) : List Char :=
  (Mask.regions lexis .code text).flatMap fun (c, region) =>
    if region = .code then [c] else Mask.blankOut c

/-- The text with its comments blanked, delimiters included, and its literals kept. -/
def eraseComments (lexis : Lexis) (text : List Char) : List Char :=
  (Mask.regions lexis .code text).flatMap fun (c, region) =>
    if region = .comment then Mask.blankOut c else [c]

end CodeSurvey
