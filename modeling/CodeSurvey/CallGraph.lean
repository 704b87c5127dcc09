import CodeSurvey.Graph.Basic
import CodeSurvey.SourceFile
import CodeSurvey.SymbolTable

/-!
# The call graph

Which function calls which. A call belongs to the innermost function around its line and is resolved
by its simple name.
-/
namespace CodeSurvey

open Pattern in
/-- A name in front of a parenthesis. -/
def callToken : Pattern :=
  group "name" (char (fun c => c.isAlpha || c == '_' || c == '$') ++
    run fun c => Text.isWord c || c == '$') ++ gap ++ one '('

structure CallGraph where
  table : SymbolTable
  /-- For every function the functions that it calls, in the order of their first calls. -/
  callees : Table (List String)
  graph : Graph
  deriving Repr

namespace CallGraph

/-- A definition with the lines that it covers. -/
structure Extent where
  definition : Definition
  span : LineSpan
  deriving DecidableEq, Repr

/-- The extents of the definitions whose line exists. A definition without a span covers its own
line alone. -/
def extents (spanOf : Nat → Option LineSpan) (lineCount : Nat) (ds : List Definition) :
    List Extent :=
  (ds.filter fun d => 1 ≤ d.line && d.line ≤ lineCount).map fun d =>
    let start := d.line - 1
    let span := (spanOf start).getD ⟨start, start⟩
    ⟨d, ⟨span.first, min span.last (lineCount - 1)⟩⟩

/-- Outer spans come before inner ones. -/
def outerFirst (a b : Extent) : Bool :=
  a.span.first < b.span.first || (a.span.first == b.span.first && b.span.last ≤ a.span.last)

/-- Gives the lines of an extent to its definition. -/
def paint (owners : List (Option Definition)) (x : Extent) : List (Option Definition) :=
  owners.zipIdx.map fun (owner, i) =>
    if x.span.first ≤ i && i ≤ x.span.last then some x.definition else owner

/-- The definition that owns each line; inner spans are painted over outer ones. -/
def lineOwners (spanOf : Nat → Option LineSpan) (lineCount : Nat) (ds : List Definition) :
    List (Option Definition) :=
  ((extents spanOf lineCount ds).mergeSort outerFirst).foldl paint (List.replicate lineCount none)

/-- The names that a line calls. -/
def callTokens (line : List Char) : List String :=
  (callToken.findAll line).map fun m => m.string "name"

/-- What a token on line `i` calls, on behalf of the owner of that line. Stop words call nothing,
the name on its own declaration line is no call, and a function's calls of itself do not count. -/
def callee? (table : SymbolTable) (stoplist : List String) (file : String) (caller : Definition)
    (i : Nat) (token : String) : Option String :=
  if stoplist.contains token || (i + 1 == caller.line && token == caller.simpleName) then none
  else ((table.resolveCall? file caller token).map Definition.id).filter (· != caller.id)

/-- Records a call, once. -/
def addCall (g : CallGraph) (caller callee : String) : CallGraph :=
  if ((g.callees.get? caller).getD []).contains callee then g
  else
    { g with
      callees := g.callees.modify caller [] (· ++ [callee])
      graph := g.graph.addEdge caller callee }

def addLine (stoplist : List String) (file : String) (g : CallGraph)
    (entry : (List Char × Option Definition) × Nat) : CallGraph :=
  match entry with
  | ((_, none), _) => g
  | ((line, some caller), i) =>
    ((callTokens line).filterMap (callee? g.table stoplist file caller i)).foldl
      (·.addCall caller.id ·) g

/-- Records the calls of a file; a file that no language reads has none. -/
def addFile (registry : Registry) (g : CallGraph) (f : ExtractedFile) : CallGraph :=
  match registry.forPath? f.path with
  | none => g
  | some { language, .. } =>
    let ds := g.table.inFile f.path
    if ds.isEmpty then g
    else
      let lines := f.maskedLines language
      let owners := lineOwners (language.spanStyle.span? lines) lines.length ds
      (lines.zip owners).zipIdx.foldl (addLine language.stoplist f.path) g

/-- Every function of the files, without calls. -/
def ofTable (table : SymbolTable) (files : List ExtractedFile) : CallGraph :=
  let ids := files.flatMap fun f => (table.inFile f.path).map Definition.id
  { table
    callees := Table.ofList (ids.map fun id => (id, []))
    graph := ids.foldl Graph.addNode .empty }

/-- The calls among all functions of the files, which come in the order of their paths. -/
def ofFiles (registry : Registry) (files : List ExtractedFile) : CallGraph :=
  let table := files.foldl (fun t f => t.addFile f.path f.functions) SymbolTable.empty
  files.foldl (addFile registry) (ofTable table files)

def edgeCount (g : CallGraph) : Nat :=
  g.callees.foldr (fun e n => e.2.length + n) 0

/-- The functions that something calls. -/
def called (g : CallGraph) : List String :=
  g.callees.flatMap Prod.snd

end CallGraph

end CodeSurvey
