import CodeSurvey.Declaration
import CodeSurvey.Doc.Comment
import CodeSurvey.EntryPoint
import CodeSurvey.SourceText
import CodeSurvey.Span

/-!
# Swift

Declarations, entry points and branch tokens of Swift files. Scopes are told apart by the number of
open braces at the start of a line.
-/
namespace CodeSurvey.Swift

def lexis : Lexis where
  lineComment := ['/', '/']
  blockComment := some (['/', '*'], ['*', '/'])
  tripleQuotes := true
  singleQuotes := false
  backticks := false

section Patterns
open Pattern

/-- The attributes in front of a declaration. -/
private def attributes : Pattern :=
  many (one '@' ++ run1 Text.isWord ++ opt (one '(' ++ run (· != ')') ++ one ')') ++ blank)

def isNameStart (c : Char) : Bool :=
  c.isAlpha || c == '_'

def typeHead : Pattern :=
  indent ++ attributes ++
    many (anyOf ["public", "private", "internal", "fileprivate", "open", "final", "indirect"] ++
      opt (lit "(set)") ++ blank) ++
    anyOf ["struct", "class", "enum", "protocol", "actor", "extension"] ++ blank ++
    group "name" (char isNameStart ++ run fun c => Text.isWord c || c == '.')

/-- The head of a function up to the parenthesis that opens its parameters. -/
def functionHead : Pattern :=
  indent ++ attributes ++
    many (anyOf ["public", "private", "internal", "fileprivate", "open", "static", "class",
        "override", "mutating", "nonmutating", "final", "required", "convenience", "nonisolated",
        "optional", "dynamic"] ++
      opt (one '(' ++ run (· != ')') ++ one ')') ++ blank) ++
    keyword "func" ++ group "name" (char isNameStart ++ run Text.isWord) ++ gap ++
    opt (one '<' ++ run (· != '>') ++ one '>') ++ gap ++ one '('

def effect : Pattern :=
  wordEdge ++ anyOf ["async", "throws", "rethrows"] ++ wordEdge

def whereClause : Pattern :=
  word "where"

/-- A word in front of a type that says how the argument is passed. -/
def parameterAttribute : Pattern :=
  ((one '@' ++ run1 Text.isWord) <|> (wordEdge ++ lit "inout") <|> (wordEdge ++ lit "sending")) ++
    blank

def mainAttribute : Pattern :=
  indent ++ lit "@main" ++ gap ++ many (anyOf ["public", "final"] ++ blank) ++
    anyOf ["struct", "class", "enum"] ++ blank ++ group "name" (run1 Text.isWord)

/-- A type of the given kind that conforms to a protocol. -/
private def conforming (kind protocol : String) : Pattern :=
  keyword kind ++ group "name" (run1 Text.isWord) ++ gap ++ one ':' ++ gap ++
    run (· != '\x7b') ++ word protocol

def appProtocol : Pattern :=
  conforming "struct" "App"

def appDelegate : Pattern :=
  conforming "class" "UIApplicationDelegate"

def sceneDelegate : Pattern :=
  conforming "class" "UIWindowSceneDelegate"

def branchTokens : List Pattern :=
  [word "if", wordEdge ++ keyword "else" ++ lit "if" ++ wordEdge, word "for", word "while",
   word "case", word "guard", word "catch",
   char Text.isBlank ++ one '?' ++ char Text.isBlank, lit "??", lit "&&", lit "||"]

end Patterns

/-- Words before a parenthesis that call no function of the tree. -/
def stoplist : List String :=
  ["if", "for", "while", "switch", "guard", "return", "catch", "repeat", "defer", "init", "super",
   "self", "print", "debugPrint", "dump", "sizeof", "alignof", "stride", "fatalError",
   "precondition", "assert", "min", "max", "abs", "zip", "type", "String", "Int", "Double", "Float",
   "Bool", "Array", "Dictionary", "Set"]

def moduleSuffixes : List String :=
  ["", ".swift"]

/-- What may go on with a head at the start of the next line. -/
def continuations : List (List Char) :=
  ["->", "async", "throws", "rethrows", "where", "\x7b"].map String.toList

/-- A parameter with the label that callers write, if it differs from the name. -/
structure LabelledParameter where
  label : Option String
  param : Parameter

/-- A text without the matches of a pattern. -/
def remove (p : Pattern) (cs : List Char) : List Char :=
  let (kept, start) := (p.findAll cs).foldl
    (fun (kept, start) m =>
      (kept ++ Text.slice cs start m.whole.offset, m.whole.stop.offset)) ([], 0)
  kept ++ Text.dropBytes start cs

/-- Two words before the colon are a label and a name. -/
def labelled (p : Parameter) : LabelledParameter :=
  let typeName := p.typeName.bind fun t =>
    let t := Text.trim (remove parameterAttribute t.toList)
    if t.isEmpty then none else some (String.ofList t)
  match Text.words p.name.toList with
  | label :: name :: _ =>
    ⟨some (String.ofList label), { p with name := String.ofList name, typeName := typeName }⟩
  | _ => ⟨none, { p with typeName := typeName }⟩

def LabelledParameter.render (p : LabelledParameter) : String :=
  match p.label with
  | some label => label ++ " " ++ p.param.render
  | none => p.param.render

/-- Where a head ends whose parameters close just before `offset`: at a brace or a semicolon outside
brackets, or at the end of a line that nothing goes on with. -/
def headEndFrom (offset depth : Nat) (prior : Char) : List Char → Nat
  | [] => offset
  | c :: cs =>
    let after := offset + c.utf8Size
    if c == '(' || c == '[' || c == '<' then headEndFrom after (depth + 1) c cs
    else if c == ')' || c == ']' || (c == '>' && prior != '-') then
      headEndFrom after (depth - 1) c cs
    else if (c == '\x7b' || c == '\x7d' || c == ';') && depth == 0 then offset
    else if c == '\n' && depth == 0 && !continuations.any (·.isPrefixOf (Text.trimStart cs)) then
      offset
    else headEndFrom after depth c cs

/-- The effects and the result type written between the parameters and the body. -/
def readTail (tail : List Char) : List String × Option String :=
  let (effects, result) :=
    match Text.cut? ['-', '>'] tail with
    | some (before, after) => (before, some after)
    | none => (tail, none)
  let type := result.bind fun r =>
    let r := match whereClause.find? r with
      | some m => Text.takeBytes m.whole.offset r
      | none => r
    let r := Text.trim r
    if r.isEmpty then none else some (String.ofList r)
  ((effect.findAll effects).map fun m => m.whole.string, type)

def renderSignature (name : String) (params : List LabelledParameter) (effects : List String)
    (returnType : Option String) : String :=
  let call := "func " ++ name ++ "(" ++ ", ".intercalate (params.map LabelledParameter.render) ++
    ")"
  let call := effects.foldl (fun s e => s ++ " " ++ e) call
  match returnType with
  | some r => call ++ " -> " ++ r
  | none => call

private def isAttribute (line : List Char) : Bool :=
  line.head? == some '@'

/-- Documentation lines come first, then a documentation block, then plain comment lines. -/
def purpose? (rawLines : List (List Char)) (i : Nat) : Option String :=
  ((Doc.lineCommentBefore? "///".toList isAttribute rawLines i).or <|
    (Doc.blockBefore? isAttribute rawLines i).or <|
    Doc.lineCommentBefore? "//".toList isAttribute rawLines i).bind
    (Doc.summarize? Doc.functionBudget)

/-- Where a function head starts its parameters and ends them. -/
structure Head where
  name : String
  opening : Nat
  closing : Nat

def head? (s : SourceText) (i : Nat) (line : List Char) : Option Head := do
  let m ← functionHead.matchHead? line
  let opening := s.lineStart i + m.whole.stop.offset - 1
  let closing ← matchingParen? s.masked opening
  return ⟨m.string "name", opening, closing⟩

/-- The declaration with head `h` on line `i`, inside the scopes of `stack`. -/
def declare (s : SourceText) (stack : ScopeStack) (i : Nat) (h : Head) : Declaration :=
  let params := (Parameter.parseMasked true (Text.slice s.raw (h.opening + 1) h.closing)
    (Text.slice s.masked (h.opening + 1) h.closing)).map labelled
  let stop := headEndFrom (h.closing + 1) 0 ')' (Text.dropBytes (h.closing + 1) s.masked)
  let (effects, returnType) :=
    readTail (Text.normalizeBlanks (Text.slice s.raw (h.closing + 1) stop))
  let (name, scope) := stack.qualify h.name
  { name, scope, returnType
    line := i + 1
    signature := renderSignature h.name params effects returnType
    params := params.map LabelledParameter.param
    purpose := purpose? s.rawLines i
    exported := hasExportMarker (Text.slice s.raw (s.lineStart i) h.opening) }

/-- The type that a line declares. Words that go on with a member declaration are no type names. -/
def typeName? (line : List Char) : Option String :=
  (typeHead.matchHead? line).bind fun m =>
    let name := m.string "name"
    if ["func", "var", "let", "subscript"].contains name then none else some name

/-- The state of the walk over the lines: the open scopes, and what has been found, the last
declaration first. -/
structure Walk where
  stack : ScopeStack
  found : List Declaration

/-- Reads one line, at whose start `depth` braces are open. -/
def visit (s : SourceText) (w : Walk) (entry : (List Char × Nat) × Nat) : Walk :=
  let ((line, i), depth) := entry
  if Text.isBlankLine line then w
  else
    let stack := w.stack.enterLine depth
    match typeName? line with
    | some name => { w with stack := stack.pushType name depth }
    | none =>
      match head? s i line with
      | none => { w with stack := stack }
      | some h => ⟨stack.pushFunction h.name depth, declare s stack i h :: w.found⟩

/-- The functions of a text, the first of each name. -/
def declarations (text : List Char) : List Declaration :=
  let s := SourceText.ofText lexis text
  Declaration.firstOfEachName <|
    ((s.numberedLines.zip (braceDepths s.masked)).foldl (visit s) ⟨.empty, []⟩).found.reverse

/-- The header that editors put on top of a new file: comment lines, one of which names an
author. -/
def hasTemplateHeader (lines : List (List Char)) : Bool :=
  (((lines.map Text.trim).dropWhile List.isEmpty).takeWhile "//".toList.isPrefixOf).any fun line =>
    "Created by".toList.isPrefixOf (Text.trim (line.dropWhile (· == '/')))

/-- What the documentation at the top of a file says, or else the comment there. -/
def filePurpose? (text : List Char) : Option String :=
  let lines := Text.lines text
  (Doc.leadingComment? "///".toList (some ("/**".toList, "*/".toList)) lines).or <|
    if hasTemplateHeader lines then none else Doc.leadingComment? "//".toList none lines

def conformingEntries (index : Text.LineIndex) (path : String) (masked : List Char)
    (kind : EntryKind) (p : Pattern) : List EntryPoint :=
  (p.findAll masked).map fun m =>
    EntryPoint.new kind (m.string "name") path (index.lineOf m.whole.offset + 1)

/-- The types marked as the start of the program, then those that conform to a protocol with that
meaning, in the order of their lines. -/
def entryPoints (path : String) (text : List Char) : List EntryPoint :=
  let masked := mask lexis text
  let index := Text.LineIndex.ofText masked
  let marked := (mainAttribute.findAll masked).map fun m =>
    let place := m.whole.offset + Text.size (m.whole.text.takeWhile (· != '@'))
    (EntryPoint.new .mainBlock (m.string "name") path (index.lineOf place + 1)).withTrigger
      "@main entry point"
  let apps := (conformingEntries index path masked .appProtocol appProtocol).filter fun e =>
    !(marked.map EntryPoint.name).contains e.name
  let entries := marked ++ apps ++
    conformingEntries index path masked .appDelegate appDelegate ++
    conformingEntries index path masked .sceneDelegate sceneDelegate
  entries.mergeSort fun a b => a.line ≤ b.line

def countBranches (masked : List Char) : Nat :=
  branchTokens.foldr (fun p n => p.count masked + n) 0

end CodeSurvey.Swift
