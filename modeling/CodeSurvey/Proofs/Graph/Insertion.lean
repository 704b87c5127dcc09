import CodeSurvey.Proofs.Graph.Basic

/-!
# The order of nodes and edges

A graph remembers a history of additions and nothing else: the nodes are the names in it, each once
and in the order of first mention, and the edges are the pairs, each once and in the order of first
addition. An adjacency list mentions all its keys before any target.
-/
namespace CodeSurvey

/-! ### First occurrences -/

section FirstOccurrence

variable {α β : Type} [BEq α] [LawfulBEq α] [BEq β] [LawfulBEq β] {xs : List α} {x : α}

theorem eraseDups_concat_of_mem (h : x ∈ xs) : (xs ++ [x]).eraseDups = xs.eraseDups := by
  rw [List.eraseDups_append, List.removeAll, List.filter_cons_of_neg (by simpa using h),
    List.filter_nil, List.eraseDups_nil, List.append_nil]

theorem eraseDups_concat_of_not_mem (h : x ∉ xs) : (xs ++ [x]).eraseDups = xs.eraseDups ++ [x] := by
  rw [List.eraseDups_append, List.removeAll, List.filter_cons_of_pos (by simpa using h),
    List.filter_nil, List.eraseDups_cons, List.filter_nil, List.eraseDups_nil]

/-- Where the image tells the elements of a part apart, the first occurrences of the image are those
of the part. -/
theorem eraseDups_map_filter (p : α → Bool) (f : α → β)
    (hinj : ∀ a b, p a = true → p b = true → f a = f b → a = b) (xs : List α) :
      ((xs.filter p).map f).eraseDups = (xs.eraseDups.filter p).map f := by
  induction xs using List.reverseRecOn with
  | nil => rfl
  | append_singleton xs x ih =>
    rw [List.filter_append, List.map_append]
    by_cases hp : p x = true
    · rw [List.filter_cons_of_pos hp, List.filter_nil, List.map_singleton]
      have hmem : f x ∈ (xs.filter p).map f ↔ x ∈ xs := by
        simp only [List.mem_map, List.mem_filter]
        constructor
        · rintro ⟨a, ⟨ha, hpa⟩, heq⟩
          exact hinj a x hpa hp heq ▸ ha
        · intro hx
          exact ⟨x, ⟨hx, hp⟩, rfl⟩
      by_cases hx : x ∈ xs
      · rw [eraseDups_concat_of_mem (hmem.2 hx), eraseDups_concat_of_mem hx, ih]
      · rw [eraseDups_concat_of_not_mem (mt hmem.1 hx), eraseDups_concat_of_not_mem hx, ih,
          List.filter_append, List.filter_cons_of_pos hp, List.filter_nil, List.map_append,
          List.map_singleton]
    · rw [List.filter_cons_of_neg hp, List.filter_nil, List.map_nil, List.append_nil, ih]
      by_cases hx : x ∈ xs
      · rw [eraseDups_concat_of_mem hx]
      · rw [eraseDups_concat_of_not_mem hx, List.filter_append, List.filter_cons_of_neg hp,
          List.filter_nil, List.append_nil]

end FirstOccurrence

namespace Graph

/-- The names that an addition mentions. -/
def Addition.mentions : Addition → List String
  | .node id => [id]
  | .edge source target => [source, target]

/-- The edge that an addition asks for. -/
def Addition.pair? : Addition → Option (String × String)
  | .node _ => none
  | .edge source target => some (source, target)

/-- The names of an adjacency list and of the additions after it, in the order in which they are
mentioned. -/
def mentioned (adjacency : List (String × List String)) (additions : List Addition) : List String :=
  adjacency.map Prod.fst ++ adjacency.flatMap Prod.snd ++ additions.flatMap Addition.mentions

/-- The edges of an adjacency list and of the additions after it, in the order in which they are
asked for. -/
def requested (adjacency : List (String × List String)) (additions : List Addition) :
    List (String × String) :=
  adjacency.flatMap (fun entry => entry.2.map (entry.1, ·)) ++ additions.filterMap Addition.pair?

/-- The nodes and the edges are the first occurrences in the lists. -/
structure Lists (g : Graph) (names : List String) (pairs : List (String × String)) : Prop where
  nodes : g.nodes = names.eraseDups
  edges : g.edges = pairs.eraseDups

namespace Lists

variable {g : Graph} {names : List String} {pairs : List (String × String)}

theorem hasNode_iff (h : g.Lists names pairs) (id : String) : g.hasNode id = true ↔ id ∈ names := by
  rw [hasNode, List.contains_iff_mem, h.nodes, List.mem_eraseDups]

theorem hasEdge_iff (h : g.Lists names pairs) (a b : String) :
    g.hasEdge a b = true ↔ (a, b) ∈ pairs := by
  rw [hasEdge, List.contains_iff_mem, h.edges, List.mem_eraseDups]

theorem addNode (h : g.Lists names pairs) (id : String) :
    (g.addNode id).Lists (names ++ [id]) pairs := by
  refine ⟨?_, (edges_addNode g id).trans h.edges⟩
  rw [Graph.addNode]
  by_cases hid : id ∈ names
  · rw [if_pos ((h.hasNode_iff id).2 hid), eraseDups_concat_of_mem hid, h.nodes]
  · rw [if_neg (mt (h.hasNode_iff id).1 hid), eraseDups_concat_of_not_mem hid, h.nodes]

/-- An edge that was asked for before is not new. -/
theorem insertEdge (h : g.Lists names pairs) (a b : String) :
    (g.insertEdge a b).1.Lists (names ++ [a, b]) (pairs ++ [(a, b)]) ∧
      ((g.insertEdge a b).2 = true ↔ (a, b) ∉ pairs) := by
  have hends := (h.addNode a).addNode b
  rw [List.append_assoc] at hends
  rw [Graph.insertEdge]
  by_cases hpair : (a, b) ∈ pairs
  · rw [if_pos ((hends.hasEdge_iff a b).2 hpair)]
    exact ⟨⟨hends.nodes, by rw [eraseDups_concat_of_mem hpair, hends.edges]⟩, by simpa using hpair⟩
  · rw [if_neg (mt (hends.hasEdge_iff a b).1 hpair)]
    exact ⟨⟨hends.nodes, by rw [eraseDups_concat_of_not_mem hpair,
      hends.edges]⟩, by simpa using hpair⟩

theorem add (h : g.Lists names pairs) (a : Addition) :
    (g.add a).Lists (names ++ a.mentions) (pairs ++ a.pair?.toList) := by
  cases a with
  | node id => simpa [Graph.add, Addition.mentions, Addition.pair?] using h.addNode id
  | edge source target => exact (h.insertEdge source target).1

theorem foldl_add (h : g.Lists names pairs) (additions : List Addition) :
    (additions.foldl Graph.add g).Lists (names ++ additions.flatMap Addition.mentions)
      (pairs ++ additions.filterMap Addition.pair?) := by
  induction additions generalizing g names pairs with
  | nil => simpa using h
  | cons a additions ih =>
    have hnext := ih (h.add a)
    rw [List.append_assoc, List.append_assoc] at hnext
    rw [List.foldl_cons, List.flatMap_cons]
    cases hpair : a.pair? with
    | none => simpa [hpair] using hnext
    | some pair => simpa [hpair] using hnext

/-! ### Adjacency lists -/

theorem foldl_addNode (h : g.Lists names pairs) (adjacency : List (String × List String)) :
    (adjacency.foldl (fun g entry => g.addNode entry.1) g).Lists
    (names ++ adjacency.map Prod.fst) pairs := by
  induction adjacency generalizing g names with
  | nil => simpa using h
  | cons entry adjacency ih => simpa using ih (h.addNode entry.1)

/-- The source of an edge is no new name where it has been mentioned. -/
theorem addTarget (h : g.Lists names pairs) {source : String} (hsource : source ∈ names)
    (target : String) :
    (g.addEdge source target).Lists (names ++ [target]) (pairs ++ [(source, target)]) := by
  obtain ⟨hnodes, hedges⟩ := (h.insertEdge source target).1
  refine ⟨?_, hedges⟩
  rw [← List.singleton_append, ← List.append_assoc, List.eraseDups_append,
    eraseDups_concat_of_mem hsource] at hnodes
  rw [addEdge, hnodes, List.eraseDups_append]
  congr 2
  refine List.filter_congr fun x _ => ?_
  have hsame : x ∈ names ++ [source] ↔ x ∈ names := by
    simp only [List.mem_append, List.mem_singleton, or_iff_left_iff_imp]
    rintro rfl
    exact hsource
  simp only [List.elem_eq_mem, hsame]

theorem foldl_addTarget (h : g.Lists names pairs) {source : String} (hsource : source ∈ names)
    (targets : List String) :
    (targets.foldl (·.addEdge source ·) g).Lists (names ++ targets)
    (pairs ++ targets.map (source, ·)) := by
  induction targets generalizing g names pairs with
  | nil => simpa using h
  | cons target targets ih => simpa using ih (h.addTarget hsource target) (by simp [hsource])

theorem foldl_addTargets (h : g.Lists names pairs) (adjacency : List (String × List String))
    (hkeys : ∀ entry ∈ adjacency, entry.1 ∈ names) :
    (adjacency.foldl (fun g entry => entry.2.foldl (·.addEdge entry.1 ·) g) g).Lists
      (names ++ adjacency.flatMap Prod.snd)
      (pairs ++ adjacency.flatMap fun entry => entry.2.map (entry.1, ·)) := by
  induction adjacency generalizing g names pairs with
  | nil => simpa using h
  | cons entry adjacency ih =>
    obtain ⟨hentry, hkeys⟩ := List.forall_mem_cons.1 hkeys
    have hnext := ih (h.foldl_addTarget hentry entry.2)
      fun other hother => by simp [hkeys other hother]
    simpa using hnext

end Lists

theorem lists_ofAdjacency (adjacency : List (String × List String)) :
    (ofAdjacency adjacency).Lists (mentioned adjacency []) (requested adjacency []) := by
  have hempty : empty.Lists [] [] := ⟨rfl, rfl⟩
  have hkeys := hempty.foldl_addNode adjacency
  rw [List.nil_append] at hkeys
  have hall := hkeys.foldl_addTargets adjacency fun entry hentry => List.mem_map_of_mem hentry
  simpa [mentioned, requested, ofAdjacency] using hall

/-- The graph of an adjacency list after further additions. -/
def ofHistory (adjacency : List (String × List String)) (additions : List Addition) : Graph :=
  additions.foldl add (ofAdjacency adjacency)

theorem lists_ofHistory (adjacency : List (String × List String)) (additions : List Addition) :
    (ofHistory adjacency additions).Lists (mentioned adjacency additions)
    (requested adjacency additions) := by
  simpa [mentioned, requested, ofHistory] using (lists_ofAdjacency adjacency).foldl_add additions

theorem Lists.successors {g : Graph} {names : List String} {pairs : List (String × String)}
    (h : g.Lists names pairs) (a : String) :
      g.successors a = ((pairs.filter (·.1 == a)).map Prod.snd).eraseDups := by
  rw [Graph.successors, h.edges]
  refine (eraseDups_map_filter (·.1 == a) Prod.snd ?_ pairs).symm
  intro e f he hf heq
  exact Prod.ext ((beq_iff_eq.1 he).trans (beq_iff_eq.1 hf).symm) heq

end Graph

end CodeSurvey
