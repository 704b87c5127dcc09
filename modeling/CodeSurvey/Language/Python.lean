import CodeSurvey.Declaration
import CodeSurvey.Doc.TypeTags
import CodeSurvey.EntryPoint
import CodeSurvey.TreePath
import CodeSurvey.SourceText
import CodeSurvey.Span

/-!
# Python

Declarations, imports, entry points and branch tokens of Python files. Scopes are told apart by
indentation.
-/
namespace CodeSurvey.Python

def lexis : Lexis where
  lineComment := ['#']
  blockComment := none
  tripleQuotes := true
  singleQuotes := true
  backticks := false

section Patterns
open Pattern

private def name1 : Pattern :=
  group "name" (run1 Text.isWord)

def classHead : Pattern :=
  gap ++ keyword "class" ++ name1

/-- The head of a function up to its name. -/
def defName : Pattern :=
  gap ++ opt (keyword "async") ++ keyword "def" ++ name1

/-- The head of a function up to the parenthesis that opens its parameters. -/
def defHead : Pattern :=
  defName ++ gap ++ one '('

def importLine : Pattern :=
  gap ++ keyword "import" ++ group "names" (run1 (· != '\n')) ++ textEnd

private def isModuleChar (c : Char) : Bool :=
  Text.isWord c || c == '.'

def fromImport : Pattern :=
  gap ++ keyword "from" ++
    group "module" ((run1 (· == '.') ++ run isModuleChar) <|> run1 isModuleChar) ++
    blank ++ lit "import" ++ wordEdge

def mainBlock : Pattern :=
  gap ++ keyword "if" ++ lit "__name__" ++ gap ++ lit "==" ++ gap ++ quote ++ lit "__main__" ++
    quote ++ gap ++ one ':'

def cliDecorator : Pattern :=
  gap ++ one '@' ++
    ((lit "click." ++ anyOf ["command", "group"]) <|> (run1 Text.isWord ++ lit ".cli.command")) ++
    wordEdge

private def route (method : Pattern) : Pattern :=
  gap ++ one '@' ++ run1 Text.isWord ++ one '.' ++ method ++ gap ++ one '(' ++ gap ++ quote ++
    group "path" (one '/' ++ run fun c => c != '\'' && c != '"') ++ quote

def flaskRoute : Pattern :=
  route (lit "route")

def fastRoute : Pattern :=
  route (group "method" (anyOf ["get", "post", "put", "delete", "patch"]))

def moduleMain : Pattern :=
  keyword "def" ++ lit "main" ++ gap ++ one '('

def branchTokens : List Pattern :=
  ["if", "elif", "for", "while", "except", "and", "or"].map word

def withHeader : Pattern :=
  word "with" ++ run1 (· != ':') ++ one ':'

end Patterns

/-- Words before a parenthesis that call no function of the tree. -/
def stoplist : List String :=
  ["if", "elif", "while", "for", "return", "yield", "assert", "not", "and", "or", "in", "is",
   "lambda", "except", "del", "await", "raise", "with", "print", "len", "range", "str", "int",
   "float", "bool", "list", "dict", "set", "tuple", "open", "input", "isinstance", "issubclass",
   "type", "super", "enumerate", "zip", "map", "filter", "sorted", "reversed", "min", "max", "sum",
   "any", "all", "abs", "round", "getattr", "setattr", "hasattr", "iter", "next", "repr", "format",
   "hash", "id", "callable", "vars", "dir", "bytes", "object", "property", "staticmethod",
   "classmethod", "Exception", "ValueError", "TypeError", "KeyError", "RuntimeError"]

def standardModules : List String :=
  ["abc", "argparse", "ast", "asynchat", "asyncio", "asyncore", "atexit", "base64", "bdb",
   "binascii", "bisect", "builtins", "bz2", "calendar", "cmath", "code", "codecs", "codeop",
   "collections", "colorsys", "concurrent", "configparser", "contextlib", "copy", "copyreg", "csv",
   "ctypes", "curses", "dataclasses", "datetime", "dbm", "decimal", "difflib", "dis", "distutils",
   "doctest", "email", "ensurepip", "enum", "errno", "faulthandler", "filecmp", "fileinput",
   "fnmatch", "fractions", "ftplib", "functools", "gc", "getopt", "getpass", "gettext", "glob",
   "gzip", "hashlib", "heapq", "hmac", "html", "http", "imaplib", "importlib", "inspect", "io",
   "ipaddress", "itertools", "json", "keyword", "linecache", "locale", "logging", "lzma", "marshal",
   "math", "mimetypes", "mmap", "modulefinder", "multiprocessing", "netrc", "numbers", "operator",
   "optparse", "os", "pathlib", "pdb", "pickle", "pkgutil", "platform", "plistlib", "poplib",
   "pprint", "profile", "pstats", "queue", "random", "re", "readline", "reprlib", "rlcompleter",
   "runpy", "sched", "secrets", "select", "selectors", "shelve", "shlex", "shutil", "signal",
   "site", "smtplib", "socket", "socketserver", "sqlite3", "ssl", "stat", "statistics", "string",
   "struct", "subprocess", "symtable", "sys", "tabnanny", "tarfile", "tempfile", "textwrap",
   "threading", "time", "timeit", "token", "tokenize", "trace", "traceback", "types", "typing",
   "unittest", "urllib", "uuid", "venv", "warnings", "wave", "weakref", "xml", "xmlrpc", "zipapp",
   "zipfile", "zlib"]

def moduleSuffixes : List String :=
  ["", ".py", "/__init__.py"]

def isRelativeImport (token : String) : Bool :=
  token.toList.head? == some '.'

/-- Whether the first segment of a token is a module of the standard library. -/
def isStandardImport (token : String) : Bool :=
  standardModules.contains (String.ofList (Text.lower (token.toList.takeWhile (· != '.'))))

/-- Where a function head starts its parameters, ends them, and ends itself. -/
structure Head where
  name : String
  opening : Nat
  closing : Nat
  colon : Nat

/-- The offset of the colon that ends a head, in a text that starts at `offset`. A line may break
only inside brackets. -/
def colonFrom? (offset depth : Nat) : List Char → Option Nat
  | [] => none
  | c :: cs =>
    let after := offset + c.utf8Size
    if Parameter.opensBracket false c then colonFrom? after (depth + 1) cs
    else if Parameter.closesBracket false c then colonFrom? after (depth - 1) cs
    else if c == ':' && depth == 0 then some offset
    else if c == '\n' && depth == 0 then none
    else colonFrom? after depth cs

/-- Whether a list of parameters that was never closed has swallowed another declaration. -/
def runsIntoDeclaration (params : List Char) : Bool :=
  ((Text.lines params).drop 1).any fun line =>
    (defHead.matchHead? line).isSome || (classHead.matchHead? line).isSome

/-- The head of a function on line `i`, which may go on over several lines. -/
def head? (s : SourceText) (i : Nat) (line : List Char) : Option Head := do
  let m ← defHead.matchHead? line
  let opening := s.lineStart i + m.whole.stop.offset - 1
  let closing ← matchingParen? s.masked opening
  if runsIntoDeclaration (Text.slice s.masked opening closing) then none
  let colon ← colonFrom? (closing + 1) 0 (Text.dropBytes (closing + 1) s.masked)
  return ⟨m.string "name", opening, closing, colon⟩

/-- Fills in the types that the head leaves out from the docstring. -/
def withDocTypes (tags : Doc.TypeTags) (params : List Parameter) : List Parameter :=
  params.map fun p =>
    match p.typeName with
    | some _ => p
    | none =>
      let plain := String.ofList (p.name.toList.dropWhile (· == '*'))
      { p with typeName := (tags.param? p.name).or (tags.param? plain) }

def renderSignature (name : String) (params : List Parameter) (returnType : Option String) :
    String :=
  let call := name ++ "(" ++ renderParameters params ++ ")"
  match returnType with
  | some r => call ++ " -> " ++ r
  | none => call

/-- The type after the arrow of a head. -/
def returnType? (s : SourceText) (h : Head) : Option String :=
  match Text.stripStart? ['-', '>'] (Text.trim (Text.slice s.raw (h.closing + 1) h.colon)) with
  | some rest =>
    let type := Text.normalizeBlanks rest
    if type.isEmpty then none else some (String.ofList type)
  | none => none

private def isDecorator (line : List Char) : Bool :=
  line.head? == some '@'

/-- What the docstring says, or else the comment above the function and its decorators. -/
def purpose? (s : SourceText) (i : Nat) (docstring : Option (List Char)) : Option String :=
  (docstring.bind (Doc.docstringSummary? Doc.functionBudget)).or <|
    (Doc.lineCommentBefore? ['#'] isDecorator s.rawLines i).bind
      (Doc.summarize? Doc.functionBudget)

/-- The declaration with head `h` on line `i`, inside the scopes of `stack`. -/
def declare (s : SourceText) (stack : ScopeStack) (i : Nat) (h : Head) : Declaration :=
  let docstring := Doc.docstringAfter? s.rawLines (s.index.lineOf h.colon)
  let tags := docstring.elim .empty Doc.docstringTypes
  let params := withDocTypes tags <|
    Parameter.parseMasked false (Text.slice s.raw (h.opening + 1) h.closing)
      (Text.slice s.masked (h.opening + 1) h.closing)
  let returnType := (returnType? s h).or tags.returns
  let (name, scope) := stack.qualify h.name
  { name, scope, params, returnType
    line := i + 1
    signature := renderSignature h.name params returnType
    purpose := purpose? s i docstring
    exported := hasExportMarker (Text.slice s.raw (s.lineStart i) h.colon) }

/-- The state of the walk over the lines: the open scopes, the first line not yet covered by a head,
and what has been found, the last declaration first. -/
structure Walk where
  stack : ScopeStack
  resume : Nat
  found : List Declaration

def visit (s : SourceText) (w : Walk) (entry : List Char × Nat) : Walk :=
  let (line, i) := entry
  if i < w.resume || Text.isBlankLine line then w
  else
    let depth := indentWidth line
    let stack := w.stack.enterLine depth
    match classHead.matchHead? line with
    | some m => { w with stack := stack.pushType (m.string "name") depth }
    | none =>
      match head? s i line with
      | none => { w with stack := stack }
      | some h =>
        { stack := stack.pushFunction h.name depth
          resume := s.index.lineOf h.colon + 1
          found := declare s stack i h :: w.found }

/-- The functions of a text, the first of each name. -/
def declarations (text : List Char) : List Declaration :=
  let s := SourceText.ofText lexis text
  Declaration.firstOfEachName (s.numberedLines.foldl (visit s) ⟨.empty, 0, []⟩).found.reverse

private def isParen (c : Char) : Bool :=
  c == '(' || c == ')'

/-- The module named by one part of an import statement. -/
def importedName? (part : List Char) : Option String :=
  let name := Text.trim (Text.before " as ".toList part)
  let name := Text.dropEndWhile isParen (name.dropWhile isParen)
  if name.isEmpty then none else some (String.ofList name)

def lineImports (line : List Char) : List String :=
  match fromImport.matchHead? line with
  | some m => [m.string "module"]
  | none =>
    match importLine.matchHead? line with
    | some m => ((m.text "names").splitOn ',').filterMap importedName?
    | none => []

/-- The modules that a text imports, in order of first appearance. -/
def imports (text : List Char) : List String :=
  ((Text.lines (mask lexis text)).flatMap lineImports).eraseDups

private def isCommentOrBlank (line : List Char) : Bool :=
  let line := Text.trim line
  line.isEmpty || line.head? == some '#'

/-- What the docstring of a file says, or else the comment at its top. -/
def filePurpose? (text : List Char) : Option String :=
  let lines := Text.lines text
  let start := (lines.takeWhile isCommentOrBlank).length
  ((Doc.docstringAt? lines start).bind fun (body, _) =>
    Doc.summarize? Doc.fileBudget (Text.lines body)).or
  (Doc.leadingComment? ['#'] none lines)

/-- The function that a decorator belongs to, at most five lines below it, and its line. -/
def decorated? (rawLines : List (List Char)) (i : Nat) : Option (String × Nat) :=
  ((rawLines.zipIdx.drop (i + 1)).take 5).findSome? fun (line, j) =>
    (defName.matchHead? line).map fun m => (m.string "name", j)

def routeEntry (rawLines : List (List Char)) (path : String) (i : Nat) (kind : EntryKind)
    (trigger : Option String) : List EntryPoint :=
  match trigger, decorated? rawLines i with
  | some t, some (name, j) => [(EntryPoint.new kind name path (j + 1)).withTrigger t]
  | _, _ => []

/-- The entry points that line `i` announces. -/
def lineEntries (rawLines : List (List Char)) (path : String) (i : Nat) (raw masked : List Char) :
    List EntryPoint :=
  if Text.isBlankLine masked then []
  else
    let block := if (mainBlock.matchHead? raw).isSome then
        [(EntryPoint.new .mainBlock "__main__" path (i + 1)).withTrigger
          "if __name__ == '__main__'"]
      else []
    let cli := routeEntry rawLines path i .cliRoute <|
      (cliDecorator.matchHead? raw).map fun _ => "Click CLI command"
    let flask := routeEntry rawLines path i .httpRoute <|
      (flaskRoute.matchHead? raw).map fun m => "Flask route: " ++ m.string "path"
    let fast := routeEntry rawLines path i .httpRoute <|
      (fastRoute.matchHead? raw).map fun m =>
        "FastAPI " ++ String.ofList ((m.text "method").map Char.toUpper) ++ " " ++ m.string "path"
    let function := if (moduleMain.matchHead? masked).isSome then
        [(EntryPoint.new .mainFunction "main" path (i + 1)).withTrigger "def main() function"]
      else []
    block ++ cli ++ flask ++ fast ++ function

def entryPoints (path : String) (text : List Char) : List EntryPoint :=
  let s := SourceText.ofText lexis text
  let package := if TreePath.fileName? path = some "__main__.py" then
      [EntryPoint.new .packageMain "__main__" path 1]
    else []
  package ++ (s.rawLines.zip s.numberedLines).flatMap fun (raw, masked, i) =>
    lineEntries s.rawLines path i raw masked

/-- Branching words, and one more for every comma in the head of a `with` block. -/
def countBranches (masked : List Char) : Nat :=
  branchTokens.foldr (fun p n => p.count masked + n) 0 +
    (withHeader.findAll masked).foldr (fun m n => m.whole.text.count ',' + n) 0

end CodeSurvey.Python
