import CodeSurvey.Declaration
import CodeSurvey.Doc.TypeTags
import CodeSurvey.EntryPoint
import CodeSurvey.SourceText
import CodeSurvey.Span
import CodeSurvey.TreePath

/-!
# JavaScript and TypeScript

Declarations, imports, entry points and branch tokens of JavaScript files and their kin. Heads of
functions are found by a table of patterns over the whole masked text; what follows the parameters
decides whether a head counts.
-/
namespace CodeSurvey.JavaScript

def lexis : Lexis where
  lineComment := ['/', '/']
  blockComment := some (['/', '*'], ['*', '/'])
  tripleQuotes := false
  singleQuotes := true
  backticks := true

/-- What must follow the parameters of a head. -/
inductive Tail where
  | any
  | body
  | arrow
  deriving DecidableEq, Repr

/-- A form of declaration: a pattern that ends with the parenthesis that opens the parameters. -/
structure Form where
  head : Pattern
  tail : Tail
  /-- It counts only directly inside a class. -/
  classOnly : Bool := false
  /-- It makes the function visible whatever the declaration says. -/
  exports : Bool := false

section Patterns
open Pattern

private def isIdentChar (c : Char) : Bool :=
  Text.isWord c || c == '$'

private def ident : Pattern :=
  char (fun c => c.isAlpha || c == '_' || c == '$') ++ run isIdentChar

private def declaredName : Pattern :=
  group "name" ident

private def isAsync : Pattern :=
  opt (keyword "async")

private def generics : Pattern :=
  opt (one '<' ++ run (fun c => c != '>' && c != '(') ++ one '>')

private def isTypeChar (c : Char) : Bool :=
  c != '=' && c != '\n'

private def binding : Pattern :=
  indent ++ opt (keyword "export") ++ anyOf ["const", "let", "var"] ++ blank ++ declaredName ++ gap

private def functionWord : Pattern :=
  lit "function" ++ wordEdge ++ gap

private def star : Pattern :=
  opt (one '*') ++ gap

private def ownName : Pattern :=
  run isIdentChar ++ gap

def forms : List Form :=
  [{ head := indent ++ opt (keyword "export" ++ opt (keyword "default")) ++
      opt (keyword "declare") ++ isAsync ++ lit "function" ++ gap ++ star ++ declaredName ++ gap ++
      generics ++ gap ++ one '('
     tail := .any },
   { head := binding ++ opt (one ':' ++ run1 isTypeChar) ++ one '=' ++ gap ++ isAsync ++
      functionWord ++ star ++ ownName ++ one '('
     tail := .any },
   { head := binding ++ opt (one ':' ++ shortRun1 isTypeChar) ++ one '=' ++ gap ++ isAsync ++
      opt (one '<' ++ run (fun c => c != '>' && c != '(') ++ one '>' ++ gap) ++ one '('
     tail := .arrow },
   { head := indent ++ opt (lit "module.") ++ lit "exports." ++ declaredName ++ gap ++ one '=' ++
     gap ++
      isAsync ++ functionWord ++ ownName ++ one '('
     tail := .any
     exports := true },
   { head := indent ++ declaredName ++ gap ++ one ':' ++ gap ++ isAsync ++ functionWord ++ star ++
      ownName ++ one '('
     tail := .any },
   { head := indent ++ declaredName ++ gap ++ one ':' ++ gap ++ isAsync ++ one '('
     tail := .arrow },
   { head := indent ++
      many (anyOf ["public", "private", "protected", "static", "readonly"] ++ blank) ++
      declaredName ++
      gap ++ opt (one ':' ++ shortRun1 isTypeChar) ++ one '=' ++ gap ++ isAsync ++ one '('
     tail := .arrow
     classOnly := true },
   { head := indent ++
      many (anyOf ["public", "private", "protected", "static", "async", "override", "abstract",
        "get", "set"] ++ blank) ++ star ++ declaredName ++ gap ++ generics ++ gap ++ one '('
     tail := .body }]

/-- An arrow function with one parameter and no parentheses. -/
def bareArrow : Pattern :=
  binding ++ one '=' ++ gap ++ isAsync ++ group "param" ident ++ gap ++ lit "=>"

def classHead : Pattern :=
  indent ++ opt (keyword "export") ++ opt (keyword "default") ++ opt (keyword "abstract") ++
    keyword "class" ++ declaredName

/-- The head of a declaration that holds types only. -/
def typeHead : Pattern :=
  indent ++ opt (keyword "export") ++ opt (keyword "declare") ++
    ((keyword "interface" ++ run1 isIdentChar) <|>
      (keyword "type" ++ run1 isIdentChar ++ opt (one '<' ++ run (· != '>') ++ one '>') ++ gap ++
        one '='))

def exportList : Pattern :=
  indent ++ lit "export" ++ gap ++ one '\x7b' ++ group "names" (run (· != '\x7d')) ++ one '\x7d'

private def quotedToken : Pattern :=
  quote ++ group "token" (run1 fun c => c != '\'' && c != '"') ++ quote

private def isClauseChar (c : Char) : Bool :=
  c != ';' && c != '\'' && c != '"' && c != '('

private def callOf (w : String) : Pattern :=
  wordEdge ++ lit w ++ gap ++ one '(' ++ gap ++ quotedToken ++ gap ++ one ')'

def importForms : List Pattern :=
  [indent ++ keyword "import" ++ opt (keyword "type") ++ shortRun isClauseChar ++ blank ++
      keyword "from" ++ quotedToken,
   indent ++ keyword "import" ++ quotedToken,
   callOf "require",
   callOf "import",
   indent ++ keyword "export" ++ shortRun isClauseChar ++ wordEdge ++ keyword "from" ++ quotedToken]

def scriptFunction : Pattern :=
  wordEdge ++ keyword "function" ++ group "name" (run1 Text.isWord) ++ gap ++ one '('

def branchTokens : List Pattern :=
  [word "if", wordEdge ++ keyword "else" ++ lit "if" ++ wordEdge, word "for", word "while",
   word "case", word "catch", lit "?", lit "&&", lit "||"]

end Patterns

/-- Words that a head never declares. -/
def notDeclarations : List String :=
  ["if", "for", "while", "switch", "catch", "function", "return", "with", "else", "do", "try",
   "typeof", "new", "await", "yield", "super", "constructor", "import", "require", "delete", "void",
   "in", "of"]

/-- Words before a parenthesis that call no function of the tree. -/
def stoplist : List String :=
  ["if", "for", "while", "switch", "catch", "typeof", "return", "function", "new", "super", "await",
   "yield", "delete", "void", "in", "of", "console", "require", "import", "export", "Math", "Array",
   "Object", "String", "Number", "Boolean", "Date", "Promise", "JSON", "Symbol", "Map", "Set",
   "Error", "RegExp", "parseInt", "parseFloat", "setTimeout", "setInterval", "clearTimeout",
   "clearInterval", "constructor"]

def moduleSuffixes : List String :=
  ["", ".js", ".ts", ".jsx", ".tsx", ".vue", "/index.js", "/index.ts", "/index.jsx", "/index.tsx"]

def isRelativeImport (token : String) : Bool :=
  token.toList.head? == some '.' || token.toList.head? == some '/'

/-- Functions that a spreadsheet or web host calls by name, with the event that does so. -/
def hostTriggers : List (String × String) :=
  [("onOpen", "Spreadsheet/Document/Form open event"),
   ("onEdit", "Spreadsheet cell edit event"),
   ("onSelectionChange", "Spreadsheet selection change event"),
   ("onChange", "Spreadsheet structure change event"),
   ("onInstall", "Add-on install event"),
   ("onFormSubmit", "Form submission event"),
   ("doGet", "HTTP GET request handler"),
   ("doPost", "HTTP POST request handler")]

/-- The parameters of a head: between two parentheses, or a single name. -/
inductive ParameterSource where
  | between (opening closing : Nat)
  | bare (name : String)

/-- A head that may declare a function. -/
structure Candidate where
  /-- Where the name stands. -/
  offset : Nat
  line : Nat
  /-- The place of its form in the table. -/
  order : Nat
  name : String
  params : ParameterSource
  returnType : Option String
  classOnly : Bool
  exported : Bool

private def isAsciiBlank (c : Char) : Bool :=
  c == ' ' || c == '\t' || c == '\n' || c == '\r' || c == '\x0c'

/-- The number of bytes of a type that starts `cs`: up to an arrow, a brace or a semicolon outside
brackets. -/
def typeSize (depth : Nat) : List Char → Nat
  | [] => 0
  | c :: cs =>
    if depth == 0 && (c == '\x7b' || c == ';' || (c == '=' && cs.head? == some '>')) then 0
    else if c == '(' || c == '[' || c == '<' then c.utf8Size + typeSize (depth + 1) cs
    else if c == ')' || c == ']' || c == '>' then c.utf8Size + typeSize (depth - 1) cs
    else c.utf8Size + typeSize depth cs

private def tailOf (rest : List Char) : Tail :=
  if ['\x7b'].isPrefixOf rest then .body
  else if ['=', '>'].isPrefixOf rest then .arrow
  else .any

/-- What follows parameters that close at `closing`: perhaps a result type, then a body, an arrow or
anything else. -/
def readTail (raw masked : List Char) (closing : Nat) : Tail × Option String :=
  let rest := (Text.dropBytes (closing + 1) masked).dropWhile isAsciiBlank
  match rest with
  | ':' :: typed =>
    let start := Text.size masked - Text.size typed
    let stop := start + typeSize 0 typed
    let type := Text.normalizeBlanks (Text.slice raw start stop)
    (tailOf ((Text.dropBytes stop masked).dropWhile isAsciiBlank),
      if type.isEmpty then none else some (String.ofList type))
  | _ => (tailOf rest, none)

def Tail.accepts (wanted found : Tail) : Bool :=
  wanted == .any || wanted == found

/-- The candidate for a match of the form at place `order` of the table. -/
def candidate? (s : SourceText) (order : Nat) (form : Form) (m : Pattern.Match) :
    Option Candidate := do
  let name ← m.group? "name"
  if notDeclarations.contains name.string then none
  let opening := m.whole.stop.offset - 1
  let closing ← matchingParen? s.masked opening
  let (tail, returnType) := readTail s.raw s.masked closing
  if !form.tail.accepts tail then none
  let line := s.index.lineOf name.offset
  return {
    order, line, returnType
    offset := name.offset
    name := name.string
    params := .between opening closing
    classOnly := form.classOnly
    exported := form.exports || hasExportMarker (Text.slice s.raw (s.lineStart line) opening) }

def bareCandidate (s : SourceText) (m : Pattern.Match) : Option Candidate := do
  let name ← m.group? "name"
  let line := s.index.lineOf name.offset
  return {
    line
    offset := name.offset
    order := forms.length
    name := name.string
    params := .bare (m.string "param")
    returnType := none
    classOnly := false
    exported := hasExportMarker (Text.slice s.raw (s.lineStart line) m.whole.stop.offset) }

def Candidate.parens? (c : Candidate) : Option (Nat × Nat) :=
  match c.params with
  | .between opening closing => some (opening, closing)
  | .bare _ => none

/-- Every head that may declare a function, in the order of lines and, on a line, of forms. A typed
parameter that looks like a head is none. -/
def candidates (s : SourceText) : List Candidate :=
  let found := (forms.zipIdx.flatMap fun (form, order) =>
      (form.head.findAll s.masked).filterMap (candidate? s order form)) ++
    (bareArrow.findAll s.masked).filterMap (bareCandidate s)
  let parens := found.filterMap Candidate.parens?
  let outside := found.filter fun c =>
    !parens.any fun (opening, closing) => opening < c.offset && c.offset < closing
  outside.mergeSort fun a b => a.line < b.line || (a.line == b.line && a.order ≤ b.order)

/-- The lines inside declarations that hold types only; the line of a head is not inside. -/
def typeSpans (s : SourceText) : List LineSpan :=
  (typeHead.findAll s.masked).filterMap fun m =>
    LineSpan.byBraces? s.maskedLines (s.index.lineOf m.whole.offset)

def isTypeLine (spans : List LineSpan) (line : Nat) : Bool :=
  spans.any fun span => span.first < line && line ≤ span.last

/-- The classes of a text with the lines of their names. -/
def classes (s : SourceText) : List (Nat × String) :=
  (classHead.findAll s.masked).filterMap fun m =>
    (m.group? "name").map fun name => (s.index.lineOf name.offset, name.string)

def renderSignature (name : String) (params : List Parameter) (returnType : Option String) :
    String :=
  let call := name ++ "(" ++ renderParameters params ++ ")"
  match returnType with
  | some r => call ++ ": " ++ r
  | none => call

private def isDecorator (line : List Char) : Bool :=
  line.head? == some '@'

private def isDecoratorOrEmpty (line : List Char) : Bool :=
  line.isEmpty || isDecorator line

def Candidate.readParameters (s : SourceText) (c : Candidate) : List Parameter :=
  match c.params with
  | .between opening closing =>
    Parameter.parseMasked true (Text.slice s.raw (opening + 1) closing)
      (Text.slice s.masked (opening + 1) closing)
  | .bare name => [Parameter.named name]

/-- Fills in the types that the head leaves out from the documentation. -/
def withDocTypes (tags : Doc.TypeTags) (params : List Parameter) : List Parameter :=
  params.map fun p =>
    match p.typeName with
    | some _ => p
    | none => { p with typeName := tags.param? p.name }

/-- The declaration of a candidate, under its qualified name. -/
def declare (s : SourceText) (c : Candidate) (name : String) (scope : ScopeKind) : Declaration :=
  let block := Doc.blockBefore? isDecoratorOrEmpty s.rawLines c.line
  let tags := block.elim .empty Doc.tagTypes
  let params := withDocTypes tags (c.readParameters s)
  let returnType := c.returnType.or tags.returns
  { name, scope, params, returnType
    line := c.line + 1
    signature := renderSignature c.name params returnType
    purpose := (block.bind (Doc.summarize? Doc.functionBudget)).or <|
      (Doc.lineCommentBefore? "//".toList isDecorator s.rawLines c.line).bind
        (Doc.summarize? Doc.functionBudget)
    exported := c.exported }

/-- The state of the walk over the lines: the open scopes, the classes and candidates still to come,
and what has been found, the last declaration first. -/
structure Walk where
  stack : ScopeStack
  classes : List (Nat × String)
  candidates : List Candidate
  found : List Declaration

/-- Opens the scopes of the classes on line `i`. -/
def openClasses (i depth : Nat) (stack : ScopeStack) :
    List (Nat × String) → ScopeStack × List (Nat × String)
  | [] => (stack, [])
  | (line, name) :: rest =>
    if line == i then openClasses i depth (stack.pushType name depth) rest
    else (stack, (line, name) :: rest)

/-- Declares the candidates on line `i`, each inside the scopes that the ones before it opened. -/
def takeCandidates (s : SourceText) (i depth : Nat) (stack : ScopeStack)
    (found : List Declaration) :
    List Candidate → ScopeStack × List Declaration × List Candidate
  | [] => (stack, found, [])
  | c :: rest =>
    if c.line == i then
      let (name, scope) := stack.qualify c.name
      if c.classOnly && scope != .type then takeCandidates s i depth stack found rest
      else
        takeCandidates s i depth (stack.pushFunction c.name depth)
          (declare s c name scope :: found) rest
    else (stack, found, c :: rest)

/-- Reads one line, at whose start `depth` braces are open. -/
def visit (s : SourceText) (w : Walk) (entry : (List Char × Nat) × Nat) : Walk :=
  let ((line, i), depth) := entry
  if Text.isBlankLine line then w
  else
    let (stack, classes) := openClasses i depth (w.stack.enterLine depth) w.classes
    let (stack, found, candidates) := takeCandidates s i depth stack w.found w.candidates
    ⟨stack, classes, candidates, found⟩

/-- The state before the first line. -/
def startWalk (s : SourceText) : Walk :=
  let spans := typeSpans s
  ⟨.empty, classes s, (candidates s).filter fun c => !isTypeLine spans c.line, []⟩

def walk (s : SourceText) : Walk :=
  (s.numberedLines.zip (braceDepths s.masked)).foldl (visit s) (startWalk s)

/-- The names in statements that export what the file itself declares. -/
def exportedNames (masked : List Char) : List String :=
  (exportList.findAll masked).flatMap fun m =>
    if "from".toList.isPrefixOf (Text.trimStart m.whole.stop.rest) then []
    else ((m.text "names").splitOn ',').filterMap fun part =>
      let name := Text.trim (Text.before " as ".toList part)
      if name.isEmpty then none else some (String.ofList name)

def markExported (names : List String) (d : Declaration) : Declaration :=
  if d.scope = .module && names.contains d.name then { d with exported := true } else d

/-- The functions of a text, the first of each name. -/
def declarations (text : List Char) : List Declaration :=
  let s := SourceText.ofText lexis text
  let names := exportedNames s.masked
  Declaration.firstOfEachName ((walk s).found.reverse.map (markExported names))

/-- Where a match starts after white space. -/
def keywordOffset (m : Pattern.Match) : Nat :=
  m.whole.offset + Text.size (m.whole.text.takeWhile Text.isBlank)

/-- The tokens of import statements and calls, in the order of their places. What masking blanks is
no statement. -/
def imports (text : List Char) : List String :=
  let masked := mask lexis text
  let found := importForms.flatMap fun p => (p.findAll text).filterMap fun m =>
    let offset := keywordOffset m
    if (Text.dropBytes offset masked).head? == (Text.dropBytes offset text).head? then
      some (offset, m.string "token")
    else none
  ((found.mergeSort fun a b => a.1 ≤ b.1).map Prod.snd).eraseDups

/-- What the comment at the top of a file says. -/
def filePurpose? (text : List Char) : Option String :=
  Doc.leadingComment? "//".toList (some ("/*".toList, "*/".toList)) (Text.lines text)

/-- The script of a single-file component: every other line is emptied. -/
def scriptLines (inScript : Bool) : List (List Char) → List (List Char)
  | [] => []
  | line :: rest =>
    let lowered := Text.lower line
    if Text.hasSub "</script".toList lowered then [] :: scriptLines false rest
    else if "<script".toList.isPrefixOf (Text.trimStart lowered) then [] :: scriptLines true rest
    else (if inScript then line else []) :: scriptLines inScript rest

def scriptView (text : List Char) : List Char :=
  Text.joined "\n" (scriptLines false (Text.pieces text))

/-- The part of a file that is code. -/
def codeView (path : String) (text : List Char) : List Char :=
  if TreePath.hasExtension path "vue" then scriptView text else text

/-- Whether a line puts a function into a menu. -/
private def namesMenu (line : List Char) : Bool :=
  Text.hasSub "createMenu".toList line || Text.hasSub "addToUi".toList line

/-- The entry point that line `i` of a hosted script declares; a menu may be built up to five lines
above. -/
def lineEntryPoint? (lines : List (List Char)) (path : String) (i : Nat) (line : List Char) :
    Option EntryPoint := do
  let m ← scriptFunction.find? line
  let name := m.string "name"
  match hostTriggers.lookup name with
  | some event =>
    let kind := if "do".toList.isPrefixOf name.toList then .httpRoute else .scheduledTrigger
    return (EntryPoint.new kind name path (i + 1)).withTrigger event
  | none =>
    if ((lines.take (i + 1)).drop (i - 5)).any namesMenu then
      return EntryPoint.new .uiMenu name path (i + 1)
    else none

/-- Only scripts hosted by an office suite have entry points. -/
def entryPoints (path : String) (text : List Char) : List EntryPoint :=
  if TreePath.hasExtension path "gs" then
    let lines := Text.pieces (mask lexis text)
    lines.zipIdx.filterMap fun (line, i) => lineEntryPoint? lines path i line
  else []

def countBranches (masked : List Char) : Nat :=
  branchTokens.foldr (fun p n => p.count masked + n) 0

end CodeSurvey.JavaScript
