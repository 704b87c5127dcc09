import CodeSurvey.Proofs.Graph.Insertion
import Std.Data.HashMap

/-!
# Graphs by index

A graph keeps its nodes in a library, which knows them by indices, and finds the index of a name in
a map. The library gives the neighbours of a node with the newest edge first, so they are turned
round. The map and the library stay in step: whatever is added, such a graph answers like the one
that lists its names and pairs.
-/
namespace CodeSurvey

/-- The operations of a library of directed graphs whose nodes bear labels. -/
structure GraphLibrary where
  State : Type
  Index : Type
  decideIndex : DecidableEq Index
  EdgeIndex : Type
  empty : State
  addNode : State → String → State × Index
  addEdge : State → Index → Index → State
  findEdge : State → Index → Index → Option EdgeIndex
  label : State → Index → String
  indices : State → List Index
  /-- The targets of the edges from a node. -/
  neighbours : State → Index → List Index
  nodeCount : State → Nat
  edgeCount : State → Nat

instance (lib : GraphLibrary) : DecidableEq lib.Index :=
  lib.decideIndex

/-- What is asked of a library. The edges that were added are not for its users to see. -/
structure GraphLibrary.Laws (lib : GraphLibrary) where
  /-- The edges, in the order in which they were added. -/
  added : lib.State → List (lib.Index × lib.Index)
  added_empty : added lib.empty = []
  added_addNode : ∀ s id, added (lib.addNode s id).1 = added s
  added_addEdge : ∀ s i j, i ∈ lib.indices s → j ∈ lib.indices s →
    added (lib.addEdge s i j) = added s ++ [(i, j)]
  indices_empty : lib.indices lib.empty = []
  indices_addNode : ∀ s id,
    lib.indices (lib.addNode s id).1 = lib.indices s ++ [(lib.addNode s id).2]
  indices_addEdge : ∀ s i j, i ∈ lib.indices s → j ∈ lib.indices s →
    lib.indices (lib.addEdge s i j) = lib.indices s
  label_new : ∀ s id, lib.label (lib.addNode s id).1 (lib.addNode s id).2 = id
  label_addNode : ∀ s id, ∀ i ∈ lib.indices s,
    lib.label (lib.addNode s id).1 i = lib.label s i
  label_addEdge : ∀ s i j, i ∈ lib.indices s → j ∈ lib.indices s →
    ∀ k ∈ lib.indices s, lib.label (lib.addEdge s i j) k = lib.label s k
  /-- The neighbours of a node are walked from the newest edge to the oldest. -/
  newest_first : ∀ s, ∀ i ∈ lib.indices s,
    lib.neighbours s i = (((added s).filter (·.1 = i)).map Prod.snd).reverse
  /-- An edge is found exactly if it was added. -/
  finds_added : ∀ s i j, i ∈ lib.indices s → j ∈ lib.indices s →
    ((lib.findEdge s i j).isSome = true ↔ (i, j) ∈ added s)
  nodeCount_eq : ∀ s, lib.nodeCount s = (lib.indices s).length
  edgeCount_eq : ∀ s, lib.edgeCount s = (added s).length

/-- A graph in a library, with the index of each name. -/
structure IndexedGraph (lib : GraphLibrary) where
  state : lib.State
  index : Std.HashMap String lib.Index

namespace IndexedGraph

variable {lib : GraphLibrary}

def empty : IndexedGraph lib :=
  ⟨lib.empty, ∅⟩

/-- The index of a name, which is made if there is none. -/
def addNode (g : IndexedGraph lib) (id : String) : IndexedGraph lib × lib.Index :=
  match g.index[id]? with
  | some i => (g, i)
  | none =>
    let added := lib.addNode g.state id
    (⟨added.1, g.index.insert id added.2⟩, added.2)

/-- Adds an edge and the nodes that it needs, and tells whether the edge is new. -/
def addEdge (g : IndexedGraph lib) (source target : String) : IndexedGraph lib × Bool :=
  let a := g.addNode source
  let b := a.1.addNode target
  if (lib.findEdge b.1.state a.2 b.2).isSome then (b.1, false)
  else ({ b.1 with state := lib.addEdge b.1.state a.2 b.2 }, true)

def hasNode (g : IndexedGraph lib) (id : String) : Bool :=
  g.index.contains id

def hasEdge (g : IndexedGraph lib) (source target : String) : Bool :=
  match g.index[source]?, g.index[target]? with
  | some a, some b => (lib.findEdge g.state a b).isSome
  | _, _ => false

def nodeCount (g : IndexedGraph lib) : Nat :=
  lib.nodeCount g.state

def edgeCount (g : IndexedGraph lib) : Nat :=
  lib.edgeCount g.state

def nodes (g : IndexedGraph lib) : List String :=
  (lib.indices g.state).map (lib.label g.state)

/-- The targets of the edges from a node; the library gives the newest one first. -/
def successors (g : IndexedGraph lib) (id : String) : List String :=
  match g.index[id]? with
  | none => []
  | some i => ((lib.neighbours g.state i).map (lib.label g.state)).reverse

/-- The graph of an adjacency list: first every key, then the edges. -/
def ofAdjacency (adjacency : List (String × List String)) : IndexedGraph lib :=
  let keyed := adjacency.foldl (fun g entry => (g.addNode entry.1).1) empty
  adjacency.foldl (fun g entry => entry.2.foldl (fun g target => (g.addEdge entry.1 target).1) g)
    keyed

def add (g : IndexedGraph lib) : Graph.Addition → IndexedGraph lib
  | .node id => (g.addNode id).1
  | .edge source target => (g.addEdge source target).1

/-- The graph of an adjacency list after further additions. -/
def ofHistory (adjacency : List (String × List String)) (additions : List Graph.Addition) :
    IndexedGraph lib :=
  additions.foldl add (ofAdjacency adjacency)

/-! ### Map and library in step -/

/-- What the library knows it goes on to know while another name is added. -/
theorem mem_addNode (laws : lib.Laws) (g : IndexedGraph lib) {i : lib.Index}
    (hi : i ∈ lib.indices g.state) (id : String) :
    i ∈ lib.indices (g.addNode id).1.state ∧
      lib.label (g.addNode id).1.state i = lib.label g.state i := by
  rw [addNode]
  cases g.index[id]? with
  | some j => exact ⟨hi, rfl⟩
  | none =>
    refine ⟨?_, laws.label_addNode g.state id i hi⟩
    rw [laws.indices_addNode]
    exact List.mem_append_left _ hi

/-- The graph in the library is the one that lists its names and pairs, and the map knows the index
of every name. -/
structure Represents (laws : lib.Laws) (g : IndexedGraph lib) (listed : Graph) : Prop where
  nodes : (lib.indices g.state).map (lib.label g.state) = listed.nodes
  edges : (laws.added g.state).map (fun e => (lib.label g.state e.1, lib.label g.state e.2)) =
    listed.edges
  ends : ∀ e ∈ laws.added g.state, e.1 ∈ lib.indices g.state ∧ e.2 ∈ lib.indices g.state
  index : ∀ id i, g.index[id]? = some i ↔ i ∈ lib.indices g.state ∧ lib.label g.state i = id

namespace Represents

variable {laws : lib.Laws} {g : IndexedGraph lib} {listed : Graph}

theorem empty : Represents laws (IndexedGraph.empty : IndexedGraph lib) .empty := by
  refine ⟨?_, ?_, ?_, ?_⟩ <;> simp [IndexedGraph.empty, laws.indices_empty, laws.added_empty]
    <;> rfl

/-- Different nodes have different labels. -/
theorem label_inj (h : Represents laws g listed) {i j : lib.Index} (hi : i ∈ lib.indices g.state)
    (hj : j ∈ lib.indices g.state) (heq : lib.label g.state i = lib.label g.state j) : i = j := by
  have hfirst := (h.index _ _).2 ⟨hi, heq⟩
  have hsecond := (h.index _ _).2 ⟨hj, rfl⟩
  exact Option.some.inj (hfirst.symm.trans hsecond)

theorem hasNode_eq (h : Represents laws g listed) (id : String) :
    g.hasNode id = listed.hasNode id := by
  rw [Bool.eq_iff_iff, hasNode, Std.HashMap.contains_eq_isSome_getElem?,
    Option.isSome_iff_exists, Graph.hasNode, List.contains_iff_mem, ← h.nodes, List.mem_map]
  exact exists_congr (h.index id)

theorem mem_added_iff (h : Represents laws g listed) {i j : lib.Index}
    (hi : i ∈ lib.indices g.state) (hj : j ∈ lib.indices g.state) :
    (i, j) ∈ laws.added g.state ↔
      listed.hasEdge (lib.label g.state i) (lib.label g.state j) = true := by
  rw [Graph.hasEdge, List.contains_iff_mem, ← h.edges, List.mem_map]
  constructor
  · exact fun hadded => ⟨_, hadded, rfl⟩
  · rintro ⟨⟨k, l⟩, hadded, heq⟩
    obtain ⟨hk, hl⟩ := h.ends _ hadded
    obtain ⟨hsource, htarget⟩ := Prod.mk.inj heq
    rwa [← h.label_inj hk hi hsource, ← h.label_inj hl hj htarget]

/-! ### One addition -/

/-- A name that the map does not know gets an index of its own. -/
theorem addFresh (h : Represents laws g listed) {id : String} (hnew : g.index[id]? = none) :
    Represents laws
      ⟨(lib.addNode g.state id).1, g.index.insert id (lib.addNode g.state id).2⟩
      { listed with nodes := listed.nodes ++ [id] } := by
  have hlabel := laws.label_addNode g.state id
  refine ⟨?_, ?_, ?_, ?_⟩
  · rw [laws.indices_addNode, List.map_append, List.map_singleton, laws.label_new,
      List.map_congr_left hlabel, h.nodes]
  · rw [laws.added_addNode, ← h.edges]
    refine List.map_congr_left fun e he => ?_
    rw [hlabel _ (h.ends e he).1, hlabel _ (h.ends e he).2]
  · intro e he
    rw [laws.added_addNode] at he
    rw [laws.indices_addNode]
    exact ⟨List.mem_append_left _ (h.ends e he).1, List.mem_append_left _ (h.ends e he).2⟩
  · intro name i
    rw [Std.HashMap.getElem?_insert, laws.indices_addNode, List.mem_append, List.mem_singleton]
    by_cases hname : id = name
    · subst hname
      rw [if_pos (beq_self_eq_true id), Option.some.injEq]
      constructor
      · rintro rfl
        exact ⟨.inr rfl, laws.label_new g.state id⟩
      · rintro ⟨hold | rfl, hid⟩
        · have hknown := (h.index id i).2 ⟨hold, (hlabel i hold).symm.trans hid⟩
          cases hnew.symm.trans hknown
        · rfl
    · rw [if_neg (by simpa using hname), h.index]
      constructor
      · rintro ⟨hold, hid⟩
        exact ⟨.inl hold, (hlabel i hold).trans hid⟩
      · rintro ⟨hold | rfl, hid⟩
        · exact ⟨hold, (hlabel i hold).symm.trans hid⟩
        · exact absurd ((laws.label_new g.state id).symm.trans hid) hname

theorem addNode (h : Represents laws g listed) (id : String) :
    Represents laws (g.addNode id).1 (listed.addNode id) ∧
      (g.addNode id).2 ∈ lib.indices (g.addNode id).1.state ∧
      lib.label (g.addNode id).1.state (g.addNode id).2 = id := by
  have hknown := h.hasNode_eq id
  rw [hasNode, Std.HashMap.contains_eq_isSome_getElem?] at hknown
  cases hindex : g.index[id]? with
  | some i =>
    have hadd : g.addNode id = (g, i) := by rw [IndexedGraph.addNode, hindex]
    rw [hindex, Option.isSome_some] at hknown
    rw [hadd, Graph.addNode, if_pos hknown.symm]
    exact ⟨h, (h.index id i).1 hindex⟩
  | none =>
    have hadd : g.addNode id = (⟨(lib.addNode g.state id).1,
        g.index.insert id (lib.addNode g.state id).2⟩, (lib.addNode g.state id).2) := by
      rw [IndexedGraph.addNode, hindex]
    rw [hindex, Option.isSome_none] at hknown
    rw [hadd, Graph.addNode, if_neg (by simp [← hknown])]
    refine ⟨h.addFresh hindex, ?_, laws.label_new g.state id⟩
    rw [laws.indices_addNode]
    exact List.mem_append_right _ (List.mem_singleton_self _)

/-- An edge between known nodes comes last. -/
theorem addLast (h : Represents laws g listed) {i j : lib.Index} (hi : i ∈ lib.indices g.state)
    (hj : j ∈ lib.indices g.state) :
    Represents laws { g with state := lib.addEdge g.state i j }
      { listed with
        edges := listed.edges ++ [(lib.label g.state i, lib.label g.state j)] } := by
  have hindices := laws.indices_addEdge g.state i j hi hj
  have hlabel := laws.label_addEdge g.state i j hi hj
  have hadded := laws.added_addEdge g.state i j hi hj
  refine ⟨?_, ?_, ?_, ?_⟩
  · rw [hindices, List.map_congr_left hlabel, h.nodes]
  · rw [hadded, List.map_append, List.map_singleton, hlabel i hi, hlabel j hj, ← h.edges]
    refine congrArg (· ++ _) (List.map_congr_left fun e he => ?_)
    rw [hlabel _ (h.ends e he).1, hlabel _ (h.ends e he).2]
  · intro e he
    rw [hadded, List.mem_append, List.mem_singleton] at he
    rw [hindices]
    rcases he with he | rfl
    · exact h.ends e he
    · exact ⟨hi, hj⟩
  · intro id k
    rw [h.index, hindices]
    exact and_congr_right fun hk => by rw [hlabel k hk]

theorem addEdge (h : Represents laws g listed) (source target : String) :
    Represents laws (g.addEdge source target).1 (listed.insertEdge source target).1 ∧
      (g.addEdge source target).2 = (listed.insertEdge source target).2 := by
  obtain ⟨hsource, hi, hlabeli⟩ := h.addNode source
  obtain ⟨htarget, hj, hlabelj⟩ := hsource.addNode target
  obtain ⟨hi, hkept⟩ := mem_addNode laws _ hi target
  rw [hlabeli] at hkept
  have hedge := htarget.mem_added_iff hi hj
  rw [hkept, hlabelj, ← laws.finds_added _ _ _ hi hj] at hedge
  rw [IndexedGraph.addEdge, Graph.insertEdge]
  by_cases hknown : ((listed.addNode source).addNode target).hasEdge source target = true
  · rw [if_pos (hedge.2 hknown), if_pos hknown]
    exact ⟨htarget, rfl⟩
  · have hlast := htarget.addLast hi hj
    rw [hkept, hlabelj] at hlast
    rw [if_neg (mt hedge.1 hknown), if_neg hknown]
    exact ⟨hlast, rfl⟩

theorem add (h : Represents laws g listed) (a : Graph.Addition) :
    Represents laws (g.add a) (listed.add a) := by
  cases a with
  | node id => exact (h.addNode id).1
  | edge source target => exact (h.addEdge source target).1

end Represents

/-- Map and library stay in step over every history. -/
theorem represents_ofHistory (laws : lib.Laws) (adjacency : List (String × List String))
    (additions : List Graph.Addition) :
    Represents laws (ofHistory adjacency additions) (.ofHistory adjacency additions) := by
  have hkeyed : Represents laws
      (adjacency.foldl (fun g entry => (g.addNode entry.1).1) empty)
      (adjacency.foldl (fun g entry => g.addNode entry.1) .empty) :=
    List.foldl_rel (r := Represents laws) .empty fun entry _ _ _ h => (h.addNode entry.1).1
  have hedges : Represents laws (ofAdjacency adjacency) (.ofAdjacency adjacency) := by
    refine List.foldl_rel (r := Represents laws) hkeyed fun entry _ _ _ h => ?_
    exact List.foldl_rel (r := Represents laws) h fun target _ _ _ h => (h.addEdge entry.1 target).1
  exact List.foldl_rel (r := Represents laws) hedges fun a _ _ _ h => h.add a

/-! ### What such a graph answers -/

namespace Represents

variable {laws : lib.Laws} {g : IndexedGraph lib} {listed : Graph}

/-- The map knows the ends of every edge. -/
theorem index_of_mem_added (h : Represents laws g listed) {e : lib.Index × lib.Index}
    (he : e ∈ laws.added g.state) : g.index[lib.label g.state e.1]? = some e.1 ∧
      g.index[lib.label g.state e.2]? = some e.2 :=
  ⟨(h.index _ _).2 ⟨(h.ends e he).1, rfl⟩, (h.index _ _).2 ⟨(h.ends e he).2, rfl⟩⟩

theorem hasEdge_eq (h : Represents laws g listed) (a b : String) :
    g.hasEdge a b = listed.hasEdge a b := by
  rw [Bool.eq_iff_iff]
  constructor
  · intro hedge
    rw [hasEdge] at hedge
    cases ha : g.index[a]? with
    | none => simp [ha] at hedge
    | some i =>
      cases hb : g.index[b]? with
      | none => simp [ha, hb] at hedge
      | some j =>
        obtain ⟨hi, hlabeli⟩ := (h.index a i).1 ha
        obtain ⟨hj, hlabelj⟩ := (h.index b j).1 hb
        rw [ha, hb] at hedge
        rw [← hlabeli, ← hlabelj]
        exact (h.mem_added_iff hi hj).1 ((laws.finds_added _ _ _ hi hj).1 hedge)
  · intro hedge
    rw [Graph.hasEdge, List.contains_iff_mem, ← h.edges, List.mem_map] at hedge
    obtain ⟨e, he, heq⟩ := hedge
    obtain ⟨rfl, rfl⟩ := Prod.mk.inj heq
    obtain ⟨hsource, htarget⟩ := h.index_of_mem_added he
    rw [hasEdge, hsource, htarget]
    exact (laws.finds_added _ _ _ (h.ends e he).1 (h.ends e he).2).2 he

/-- Turned round, the neighbours stand in the order in which their edges were added. -/
theorem successors_eq (h : Represents laws g listed) (id : String) :
    g.successors id = listed.successors id := by
  rw [successors, Graph.successors, ← h.edges, List.filter_map, List.map_map]
  cases hindex : g.index[id]? with
  | none =>
    have hnone : (laws.added g.state).filter
        ((fun e => e.1 == id) ∘ fun e => (lib.label g.state e.1, lib.label g.state e.2)) = [] := by
      refine List.filter_eq_nil_iff.2 fun e he hid => ?_
      have hknown := (h.index_of_mem_added he).1
      rw [show lib.label g.state e.1 = id by simpa using hid, hindex] at hknown
      cases hknown
    rw [hnone]
    rfl
  | some i =>
    obtain ⟨hi, hlabel⟩ := (h.index id i).1 hindex
    have hfilter : (laws.added g.state).filter (·.1 = i) = (laws.added g.state).filter
        ((fun e => e.1 == id) ∘ fun e => (lib.label g.state e.1, lib.label g.state e.2)) := by
      refine List.filter_congr fun e he => ?_
      rw [Function.comp_apply, Bool.eq_iff_iff, decide_eq_true_iff, beq_iff_eq]
      constructor
      · rintro rfl
        exact hlabel
      · intro hid
        exact h.label_inj (h.ends e he).1 hi (hid.trans hlabel.symm)
    simp only [laws.newest_first g.state i hi, List.map_reverse, List.reverse_reverse,
      List.map_map, hfilter]
    rfl

theorem edgeCount_eq (h : Represents laws g listed) : g.edgeCount = listed.edges.length := by
  rw [edgeCount, laws.edgeCount_eq, ← h.edges, List.length_map]

theorem nodeCount_eq (h : Represents laws g listed) : g.nodeCount = listed.nodes.length := by
  rw [nodeCount, laws.nodeCount_eq, ← h.nodes, List.length_map]

end Represents

/-- A graph in a library that keeps the laws, built from an adjacency list and by further additions,
answers like the one that lists its names and pairs. It lists each name once, in the order of first
mention, and after each name the targets of its edges, each once and in the order of first addition.
It has just the edges that were asked for. A further edge is new just if it was not asked for
before, so the number of edges is that of different pairs. -/
theorem history_in_order (laws : lib.Laws) (adjacency : List (String × List String))
    (additions : List Graph.Addition) :
    let g : IndexedGraph lib := ofHistory adjacency additions
    let names := Graph.mentioned adjacency additions
    let pairs := Graph.requested adjacency additions
    Represents laws g (.ofHistory adjacency additions) ∧
      g.nodes = names.eraseDups ∧
      (∀ a, g.hasNode a = true ↔ a ∈ names) ∧
      (∀ a, g.successors a = ((pairs.filter (·.1 == a)).map Prod.snd).eraseDups) ∧
      (∀ a b, g.hasEdge a b = true ↔ (a, b) ∈ pairs) ∧
      (∀ a b, (g.addEdge a b).1 = ofHistory adjacency (additions ++ [.edge a b]) ∧
        ((g.addEdge a b).2 = true ↔ (a, b) ∉ pairs)) ∧
      g.nodeCount = names.eraseDups.length ∧ g.edgeCount = pairs.eraseDups.length := by
  intro g names pairs
  have h : Represents laws g (.ofHistory adjacency additions) :=
    represents_ofHistory laws adjacency additions
  have hlists := Graph.lists_ofHistory adjacency additions
  refine ⟨h, h.nodes.trans hlists.nodes, ?_, ?_, ?_, ?_, ?_, ?_⟩
  · intro a
    rw [h.hasNode_eq]
    exact hlists.hasNode_iff a
  · intro a
    rw [h.successors_eq]
    exact hlists.successors a
  · intro a b
    rw [h.hasEdge_eq]
    exact hlists.hasEdge_iff a b
  · intro a b
    refine ⟨?_, ?_⟩
    · rw [ofHistory, List.foldl_append]
      rfl
    · rw [(h.addEdge a b).2]
      exact (hlists.insertEdge a b).2
  · rw [h.nodeCount_eq, hlists.nodes]
  · rw [h.edgeCount_eq, hlists.edges]

/-- A library that keeps the labels in a list and puts every new edge in front. -/
abbrev listLibrary : GraphLibrary where
  State := List String × List (Nat × Nat)
  Index := Nat
  decideIndex := inferInstance
  EdgeIndex := Nat
  empty := ([], [])
  addNode s id := ((s.1 ++ [id], s.2), s.1.length)
  addEdge s i j := (s.1, (i, j) :: s.2)
  findEdge s i j := s.2.idxOf? (i, j)
  label s i := s.1[i]?.getD ""
  indices s := List.range s.1.length
  neighbours s i := (s.2.filter (·.1 == i)).map Prod.snd
  nodeCount s := s.1.length
  edgeCount s := s.2.length

def listLibrary_laws : listLibrary.Laws where
  added s := s.2.reverse
  added_empty := rfl
  added_addNode _ _ := rfl
  added_addEdge _ _ _ _ _ := List.reverse_cons
  indices_empty := rfl
  indices_addNode s id := by simp [List.range_succ]
  indices_addEdge _ _ _ _ _ := rfl
  label_new s id := by simp
  label_addNode s id i hi := by
    simp [List.getElem?_append_left (List.mem_range.1 hi)]
  label_addEdge _ _ _ _ _ _ _ := rfl
  newest_first s i _ := by
    rw [List.filter_reverse, List.map_reverse, List.reverse_reverse]
    rfl
  finds_added s i j _ _ := by rw [List.mem_reverse, List.isSome_idxOf?]
  nodeCount_eq _ := List.length_range.symm
  edgeCount_eq _ := List.length_reverse.symm

/-- A repeated edge, a target that becomes a source, and an edge from a node to itself. -/
theorem history_in_order_repeated :
    let g : IndexedGraph listLibrary :=
      ofHistory [("a", ["c", "b", "c"]), ("b", [])] [.edge "b" "b", .node "d"]
    g.nodes = ["a", "b", "c", "d"] ∧ g.successors "a" = ["c", "b"] ∧ g.hasEdge "b" "b" = true ∧
      (g.addEdge "a" "b").2 = false ∧ g.edgeCount = 3 := by
  intro g
  obtain ⟨-, hnodes, -, hsuccessors, hedge, hadd, -, hcount⟩ := history_in_order listLibrary_laws
    [("a", ["c", "b", "c"]), ("b", [])] [.edge "b" "b", .node "d"]
  refine ⟨hnodes, hsuccessors "a", (hedge "b" "b").2 (by decide), ?_, hcount⟩
  exact Bool.eq_false_iff.2 fun hnew => ((hadd "a" "b").2.1 hnew) (by decide)

end IndexedGraph

end CodeSurvey
