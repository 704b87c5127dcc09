import CodeSurvey.Graph.Basic

/-!
# Cycles

A depth-first walk from every node in turn. An edge to a node on the current path closes a cycle:
the path from that node on, and the node once more. A cycle, its rotations and its reverse count as
one, and the first of them to be found is kept.
-/
namespace CodeSurvey.Graph

def least? : List String → Option String
  | [] => none
  | n :: ns => some (ns.foldl (fun least n => if n < least then n else least) n)

/-- Turns a list so that its least element, the first one of equals, comes first. -/
def rotateToLeast (nodes : List String) : List String :=
  match least? nodes with
  | none => nodes
  | some least =>
    let before := nodes.takeWhile (· != least)
    nodes.drop before.length ++ before

/-- The same for a closed list, all its rotations, and its reverse. -/
def canonical (cycle : List String) : List String :=
  let nodes := cycle.dropLast
  let forward := rotateToLeast nodes
  let backward := rotateToLeast nodes.reverse
  if backward < forward then backward else forward

/-- Where the walk stands. -/
structure Walk where
  /-- The nodes from the current one back to the root. -/
  path : List String
  /-- For each node on the path the successors still to be examined. -/
  pending : List (List String)
  visited : List String
  /-- The closed paths met so far, the last one first. -/
  found : List (List String)
  deriving DecidableEq, Repr

namespace Walk

def start : Walk :=
  ⟨[], [], [], []⟩

/-- Puts a node at the end of the path. -/
def enter (g : Graph) (w : Walk) (node : String) : Walk :=
  { w with
    path := node :: w.path
    pending := g.successors node :: w.pending
    visited := node :: w.visited }

/-- The path from `node` on, and `node` once more. -/
def closedBy (w : Walk) (node : String) : List String :=
  node :: (w.path.takeWhile (· != node)).reverse ++ [node]

/-- Examines the next successor of the current node, or leaves the node if there is none. The walk
from a root is over when the path is empty. -/
def step? (g : Graph) (w : Walk) : Option Walk :=
  match w.pending with
  | [] => none
  | [] :: rest => some { w with path := w.path.tail, pending := rest }
  | (next :: others) :: rest =>
    let w := { w with pending := others :: rest }
    if w.path.contains next then some { w with found := w.closedBy next :: w.found }
    else if w.visited.contains next then some w
    else some (w.enter g next)

/-- Walks on until the path is empty, for at most `fuel` steps. -/
def run (g : Graph) : Nat → Walk → Walk
  | 0, w => w
  | fuel + 1, w =>
    match w.step? g with
    | none => w
    | some w => run g fuel w

/-- Walks from a root, unless an earlier walk has been there. Every edge is examined at most once
and every node left at most once. -/
def walkFrom (g : Graph) (w : Walk) (root : String) : Walk :=
  if w.visited.contains root then w
  else run g (g.nodes.length + g.edges.length) (w.enter g root)

end Walk

/-- Keeps a cycle, with its canonical form, unless one of the same form was kept before. -/
def keepNew (kept : List (List String × List String)) (cycle : List String) :
    List (List String × List String) :=
  let key := canonical cycle
  if kept.any (·.1 == key) then kept else kept ++ [(key, cycle)]

/-- The closed paths that the walks from all nodes meet, in the order of their discovery. -/
def closedPaths (g : Graph) : List (List String) :=
  (g.nodes.foldl (Walk.walkFrom g) .start).found.reverse

/-- The cycles of a graph, in the order of their discovery. -/
def cycles (g : Graph) : List (List String) :=
  (g.closedPaths.foldl keepNew []).map Prod.snd

end CodeSurvey.Graph
