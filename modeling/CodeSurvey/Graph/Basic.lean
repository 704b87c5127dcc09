/-!
# Directed graphs

Graphs whose nodes are names. Nodes and edges are kept in the order in which they were first
mentioned, each once.
-/
namespace CodeSurvey

structure Graph where
  nodes : List String
  edges : List (String × String)
  deriving DecidableEq, Repr

namespace Graph

def empty : Graph :=
  ⟨[], []⟩

def hasNode (g : Graph) (id : String) : Bool :=
  g.nodes.contains id

def hasEdge (g : Graph) (source target : String) : Bool :=
  g.edges.contains (source, target)

def addNode (g : Graph) (id : String) : Graph :=
  if g.hasNode id then g else { g with nodes := g.nodes ++ [id] }

/-- Adds an edge and the nodes that it needs, and tells whether the edge is new. -/
def insertEdge (g : Graph) (source target : String) : Graph × Bool :=
  let g := (g.addNode source).addNode target
  if g.hasEdge source target then (g, false)
  else ({ g with edges := g.edges ++ [(source, target)] }, true)

def addEdge (g : Graph) (source target : String) : Graph :=
  (g.insertEdge source target).1

/-- The targets of the edges from a node, in the order in which the edges were added. -/
def successors (g : Graph) (id : String) : List String :=
  (g.edges.filter fun e => e.1 == id).map Prod.snd

/-- The graph of an adjacency list: first every key, then the edges. -/
def ofAdjacency (adjacency : List (String × List String)) : Graph :=
  let keyed := adjacency.foldl (fun g (source, _) => g.addNode source) empty
  adjacency.foldl (fun g (source, targets) => targets.foldl (·.addEdge source ·) g) keyed

end Graph

end CodeSurvey
