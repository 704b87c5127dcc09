import CodeSurvey.Graph.Basic
import Mathlib.Data.List.Chain
import Mathlib.Data.List.Nodup
import Mathlib.Data.Set.Subsingleton
import Mathlib.Logic.Relation

/-!
# Graphs built step by step

Whatever nodes and edges are added in whatever order, a graph lists each of its nodes and edges
once, and the ends of its edges are among its nodes. Reachability, components and cycles are those
of the edge relation alone.
-/
namespace CodeSurvey.Graph

/-- One addition to a graph. -/
inductive Addition where
  | node (id : String)
  | edge (source target : String)
  deriving DecidableEq, Repr

def add (g : Graph) : Addition → Graph
  | .node id => g.addNode id
  | .edge source target => g.addEdge source target

/-- The graph that a list of additions builds. -/
def ofAdditions (additions : List Addition) : Graph :=
  additions.foldl add empty

def Edge (g : Graph) (a b : String) : Prop :=
  g.hasEdge a b = true

/-- The strongly connected component of a node. -/
def component (g : Graph) (v : String) : Set String :=
  {u | Relation.ReflTransGen g.Edge v u ∧ Relation.ReflTransGen g.Edge u v}

/-- A component contains a cycle: a node with an edge to itself, or two nodes. -/
def IsCyclicComponent (g : Graph) (component : Set String) : Prop :=
  (∃ u ∈ component, g.Edge u u) ∨ component.Nontrivial

def Acyclic (g : Graph) : Prop :=
  ∀ v, ¬ Relation.TransGen g.Edge v v

/-- A closed list of nodes along edges that meets no node twice before it comes back. -/
structure IsCycle (g : Graph) (c : List String) : Prop where
  two_le : 2 ≤ c.length
  closed : c.head? = c.getLast?
  nodup : c.dropLast.Nodup
  chain : c.IsChain g.Edge

structure WellFormed (g : Graph) : Prop where
  nodes_nodup : g.nodes.Nodup
  edges_nodup : g.edges.Nodup
  ends_mem : ∀ e ∈ g.edges, e.1 ∈ g.nodes ∧ e.2 ∈ g.nodes

theorem edge_iff {g : Graph} {a b : String} : g.Edge a b ↔ (a, b) ∈ g.edges := by
  simp [Edge, hasEdge]

@[simp] theorem mem_successors {g : Graph} {a b : String} : b ∈ g.successors a ↔ g.Edge a b := by
  simp [successors, edge_iff]

theorem wellFormed_empty : WellFormed empty :=
  ⟨.nil, .nil, by simp [empty]⟩

theorem mem_addNode {g : Graph} {id v : String} :
    v ∈ (g.addNode id).nodes ↔ v ∈ g.nodes ∨ v = id := by
  simp only [addNode, hasNode, List.contains_iff_mem]
  split
  · constructor
    · exact Or.inl
    · rintro (hv | rfl)
      · exact hv
      · assumption
  · simp

@[simp] theorem edges_addNode (g : Graph) (id : String) : (g.addNode id).edges = g.edges := by
  simp only [addNode]
  split <;> rfl

theorem mem_foldl_addNode {g : Graph} {ids : List String} {v : String} :
    v ∈ (ids.foldl addNode g).nodes ↔ v ∈ g.nodes ∨ v ∈ ids := by
  induction ids generalizing g with
  | nil => simp
  | cons id ids ih => rw [List.foldl_cons, ih, mem_addNode, List.mem_cons, or_assoc]

theorem edges_foldl_addNode (g : Graph) (ids : List String) :
    (ids.foldl addNode g).edges = g.edges := by
  induction ids generalizing g with
  | nil => rfl
  | cons id ids ih => rw [List.foldl_cons, ih, edges_addNode]

theorem mem_addEdge {g : Graph} {a b v : String} :
    v ∈ (g.addEdge a b).nodes ↔ v ∈ g.nodes ∨ v = a ∨ v = b := by
  have hnodes : (g.addEdge a b).nodes = ((g.addNode a).addNode b).nodes := by
    simp only [addEdge, insertEdge]
    split <;> rfl
  rw [hnodes, mem_addNode, mem_addNode, or_assoc]

/-- An edge that is new is put at the end. -/
theorem edges_addEdge {g : Graph} {a b : String} (hnew : ¬g.Edge a b) :
    (g.addEdge a b).edges = g.edges ++ [(a, b)] := by
  rw [edge_iff] at hnew
  simp [addEdge, insertEdge, hasEdge, hnew]

theorem WellFormed.addNode {g : Graph} (h : g.WellFormed) (id : String) :
    (g.addNode id).WellFormed := by
  refine ⟨?_, by simpa using h.edges_nodup, ?_⟩
  · simp only [Graph.addNode, hasNode, List.contains_iff_mem]
    split
    · exact h.nodes_nodup
    · rename_i hnew
      exact List.nodup_append'.mpr ⟨h.nodes_nodup, List.nodup_singleton id, by simpa using hnew⟩
  · intro e he
    rw [edges_addNode] at he
    have hends := h.ends_mem e he
    exact ⟨mem_addNode.mpr (.inl hends.1), mem_addNode.mpr (.inl hends.2)⟩

theorem WellFormed.addEdge {g : Graph} (h : g.WellFormed) (source target : String) :
    (g.addEdge source target).WellFormed := by
  have hnodes := (h.addNode source).addNode target
  simp only [Graph.addEdge, insertEdge]
  split
  · exact hnodes
  · rename_i hnew
    refine ⟨hnodes.nodes_nodup, ?_, ?_⟩
    · refine List.nodup_append'.mpr ⟨hnodes.edges_nodup, List.nodup_singleton _, ?_⟩
      simpa [hasEdge] using hnew
    · intro e he
      rcases List.mem_append.mp he with he | he
      · exact hnodes.ends_mem e he
      · obtain rfl := List.mem_singleton.mp he
        exact ⟨mem_addNode.mpr (.inl (mem_addNode.mpr (.inr rfl))), mem_addNode.mpr (.inr rfl)⟩

theorem WellFormed.add {g : Graph} (h : g.WellFormed) (a : Addition) : (g.add a).WellFormed := by
  cases a with
  | node id => exact h.addNode id
  | edge source target => exact h.addEdge source target

theorem wellFormed_ofAdditions (additions : List Addition) :
    (ofAdditions additions).WellFormed := by
  suffices h : ∀ g : Graph, g.WellFormed → (additions.foldl Graph.add g).WellFormed from
    h empty wellFormed_empty
  induction additions with
  | nil => exact fun g hg => hg
  | cons a additions ih => exact fun g hg => ih (g.add a) (hg.add a)

theorem WellFormed.target_mem {g : Graph} (h : g.WellFormed) {a b : String} (hab : g.Edge a b) :
    b ∈ g.nodes :=
  (h.ends_mem _ (edge_iff.mp hab)).2

theorem WellFormed.source_mem {g : Graph} (h : g.WellFormed) {a b : String} (hab : g.Edge a b) :
    a ∈ g.nodes :=
  (h.ends_mem _ (edge_iff.mp hab)).1

end CodeSurvey.Graph
