import CodeSurvey.Proofs.Graph.Coverage
import Mathlib.Data.List.Forall2

/-!
# The books of the walk

A search keeps its path, the marks of the nodes on the path, its frames and the visited nodes apart,
and each of them is changed on its own. The books say that they always agree: they are kept by every
round of the loop and by every root. What was pushed and what was examined is written down, so that
the end of the search can be read from the books: every node has been pushed once and every edge
examined once, and one step was spent on each root, each edge and each node that was left. Without
marks and records the search is the walk.
-/
namespace CodeSurvey.Graph

/-- The successors of a node on the path, and the number of those that have been examined. -/
structure SearchFrame where
  successors : List String
  next : Nat
  deriving DecidableEq, Repr

def SearchFrame.pending (f : SearchFrame) : List String :=
  f.successors.drop f.next

@[simp] theorem SearchFrame.pending_zero (successors : List String) :
    SearchFrame.pending ⟨successors, 0⟩ = successors :=
  rfl

/-- Where the search over all roots stands, and what it has done. -/
structure Search where
  /-- The nodes still to be tried as roots. -/
  roots : List String
  /-- The nodes from the current one back to the root. -/
  path : List String
  /-- The nodes that are marked as nodes of the path. -/
  marked : List String
  /-- One frame for each node of the path. -/
  frames : List SearchFrame
  visited : List String
  found : List (List String)
  /-- Every node that was put on a path, the last one first. -/
  pushed : List String
  /-- Every edge that was examined, the last one first. -/
  examined : List (String × String)
  /-- The marked nodes that were looked for on the path in vain. -/
  lost : List String
  deriving DecidableEq, Repr

theorem WellFormed.successors_nodup {g : Graph} (hg : g.WellFormed) (v : String) :
    (g.successors v).Nodup := by
  refine List.Nodup.map_on ?_ (hg.edges_nodup.filter _)
  intro e he f hf heq
  have hesource : e.1 = v := by simpa using (List.mem_filter.mp he).2
  have hfsource : f.1 = v := by simpa using (List.mem_filter.mp hf).2
  exact Prod.ext (hesource.trans hfsource.symm) heq

namespace Walk

/-- A walk that is over stays where it is. -/
theorem run_eq_self {g : Graph} {w : Walk} (h : w.pending = []) (fuel : Nat) :
    run g fuel w = w := by
  cases fuel with
  | zero => rfl
  | succ fuel => simp [run, step?, h]

theorem run_add (g : Graph) (m n : Nat) (w : Walk) : run g (m + n) w = run g n (run g m w) := by
  induction m generalizing w with
  | zero => rw [Nat.zero_add, run]
  | succ m ih =>
    rw [Nat.succ_add, run, run]
    cases hs : w.step? g with
    | none => exact (run_eq_self (step?_eq_none hs) n).symm
    | some w' => exact ih w'

/-- Runs that come to an end come to the same. -/
theorem run_unique {g : Graph} {w : Walk} {m n : Nat} (hm : (run g m w).pending = [])
    (hn : (run g n w).pending = []) : run g m w = run g n w := by
  calc run g m w = run g n (run g m w) := (run_eq_self hm n).symm
    _ = run g (m + n) w := (run_add g m n w).symm
    _ = run g (n + m) w := by rw [Nat.add_comm]
    _ = run g m (run g n w) := run_add g n m w
    _ = run g n w := run_eq_self hn m

end Walk

namespace Search

def start (g : Graph) : Search :=
  ⟨g.nodes, [], [], [], [], [], [], [], []⟩

def push (g : Graph) (s : Search) (node : String) : Search :=
  { s with
    path := node :: s.path
    marked := node :: s.marked
    frames := ⟨g.successors node, 0⟩ :: s.frames
    visited := node :: s.visited
    pushed := node :: s.pushed }

/-- A root gets a path, marks and frames of its own. -/
def pushRoot (g : Graph) (s : Search) (root : String) : Search :=
  push g { s with path := [], marked := [], frames := [] } root

/-- Takes `node` from the frame on top. -/
def advance (s : Search) (top : SearchFrame) (rest : List SearchFrame) (node : String) : Search :=
  { s with
    frames := { top with next := top.next + 1 } :: rest
    examined := (s.path.head?.map (·, node)).toList ++ s.examined }

/-- Looks for a marked node on the path, and closes the path from there on. -/
def close (s : Search) (node : String) : Search :=
  match s.path.idxOf? node with
  | some i => { s with found := ((s.path.take (i + 1)).reverse ++ [node]) :: s.found }
  | none => { s with lost := node :: s.lost }

def pop (s : Search) (rest : List SearchFrame) : Search :=
  { s with
    path := s.path.tail
    marked := s.marked.filter fun v => s.path.head? != some v
    frames := rest }

/-- One round of the loop over the frames, which is over when there is none. -/
def round? (g : Graph) (s : Search) : Option Search :=
  match s.frames with
  | [] => none
  | top :: rest =>
    match top.successors[top.next]? with
    | none => some (s.pop rest)
    | some node =>
      let s := s.advance top rest node
      if s.marked.contains node then some (s.close node)
      else if s.visited.contains node then some s
      else some (s.push g node)

/-- A round or, where the loop is over, the next root. -/
def step? (g : Graph) (s : Search) : Option Search :=
  match s.round? g with
  | some t => some t
  | none =>
    match s.roots with
    | [] => none
    | root :: roots =>
      let s := { s with roots := roots }
      some (if s.visited.contains root then s else s.pushRoot g root)

/-- The states of the search, with the number of steps that lead to them. -/
inductive ReachedIn (g : Graph) : Nat → Search → Prop
  | start : ReachedIn g 0 (start g)
  | step {n : Nat} {s t : Search} (h : ReachedIn g n s) (hs : s.step? g = some t) :
    ReachedIn g (n + 1) t

/-- The search without marks and records. -/
def toWalk (s : Search) : Walk :=
  ⟨s.path, s.frames.map SearchFrame.pending, s.visited, s.found⟩

variable {g : Graph} {s t : Search}

/-! ### Steps -/

/-- What one round does. -/
inductive Round (g : Graph) (s : Search) : Search → Prop
  | pop (top : SearchFrame) (rest : List SearchFrame) (hframes : s.frames = top :: rest)
      (hend : top.successors.length ≤ top.next) : Round g s (s.pop rest)
  | close (top : SearchFrame) (rest : List SearchFrame) (node : String)
      (hframes : s.frames = top :: rest)
      (hnode : top.successors[top.next]? = some node) (hmarked : node ∈ s.marked) :
      Round g s ((s.advance top rest node).close node)
  | skip (top : SearchFrame) (rest : List SearchFrame) (node : String)
      (hframes : s.frames = top :: rest)
      (hnode : top.successors[top.next]? = some node) : Round g s (s.advance top rest node)
  | push (top : SearchFrame) (rest : List SearchFrame) (node : String)
      (hframes : s.frames = top :: rest)
      (hnode : top.successors[top.next]? = some node) (hnew : node ∉ s.visited) :
      Round g s ((s.advance top rest node).push g node)

/-- What one step does: a round, or a root that is passed over or pushed. -/
inductive Step (g : Graph) (s : Search) : Search → Prop
  | round {t : Search} (h : s.round? g = some t) : Step g s t
  | pass (root : String) (roots : List String) (hframes : s.frames = [])
      (hroots : s.roots = root :: roots)
      (hseen : root ∈ s.visited) : Step g s { s with roots := roots }
  | root (root : String) (roots : List String) (hframes : s.frames = [])
      (hroots : s.roots = root :: roots)
      (hnew : root ∉ s.visited) : Step g s (pushRoot g { s with roots := roots } root)

theorem round_of_round? (h : s.round? g = some t) : Round g s t := by
  unfold round? at h
  split at h
  · cases h
  · rename_i top rest hframes
    split at h
    · rename_i hend
      cases h
      exact .pop top rest hframes (List.getElem?_eq_none_iff.mp hend)
    · rename_i node hnode
      simp only [List.contains_iff_mem] at h
      split_ifs at h with hmarked hseen
      · cases h
        exact .close top rest node hframes hnode hmarked
      · cases h
        exact .skip top rest node hframes hnode
      · cases h
        exact .push top rest node hframes hnode hseen

theorem round?_eq_none (h : s.round? g = none) : s.frames = [] := by
  unfold round? at h
  split at h
  · assumption
  · split at h
    · cases h
    · simp only at h
      split_ifs at h

theorem step_of_step? (h : s.step? g = some t) : Step g s t := by
  unfold step? at h
  split at h
  · rename_i hround
    cases h
    exact .round hround
  · rename_i hround
    have hframes := round?_eq_none hround
    split at h
    · cases h
    · rename_i root roots hroots
      cases h
      simp only [List.contains_iff_mem]
      split_ifs with hseen
      · exact .pass root roots hframes hroots hseen
      · exact .root root roots hframes hroots hseen

theorem step?_eq_none (h : s.step? g = none) : s.frames = [] ∧ s.roots = [] := by
  unfold step? at h
  split at h
  · cases h
  · rename_i hround
    split at h
    · rename_i hroots
      exact ⟨round?_eq_none hround, hroots⟩
    · cases h

theorem Round.roots_eq (h : Round g s t) : t.roots = s.roots := by
  cases h with
  | pop | skip | push => rfl
  | close =>
    rw [Search.close]
    split <;> rfl

/-! ### The walk inside the search -/

theorem pending_of_getElem? {f : SearchFrame} {node : String}
    (h : f.successors[f.next]? = some node) :
    f.pending = node :: SearchFrame.pending { f with next := f.next + 1 } := by
  obtain ⟨hlt, rfl⟩ := List.getElem?_eq_some_iff.mp h
  exact List.drop_eq_getElem_cons hlt

theorem take_idxOf? {node : String} {path : List String} {i : Nat} (h : path.idxOf? node = some i) :
    path.take (i + 1) = path.takeWhile (· != node) ++ [node] := by
  induction path generalizing i with
  | nil => simp at h
  | cons v path ih =>
    rw [List.idxOf?_cons] at h
    by_cases hv : v = node
    · obtain rfl : 0 = i := by simpa [hv] using h
      simp [hv]
    · rw [if_neg (by simpa using hv)] at h
      obtain ⟨j, hj, rfl⟩ := Option.map_eq_some_iff.mp h
      rw [List.take_succ_cons, ih hj, List.takeWhile_cons_of_pos (by simpa using hv),
        List.cons_append]

/-- A marked node that stands on the path closes the path as in the walk. -/
theorem close_eq {node : String} (h : node ∈ s.path) :
    s.close node = { s with found := s.toWalk.closedBy node :: s.found } := by
  cases hi : s.path.idxOf? node with
  | none => exact absurd h (List.idxOf?_eq_none_iff.mp hi)
  | some i =>
    have hclosed : (s.path.take (i + 1)).reverse ++ [node] = s.toWalk.closedBy node := by
      rw [take_idxOf? hi, List.reverse_append]
      rfl
    simp only [close, hi, hclosed]

/-- Where the marks are those of the path, a round of the search is a step of the walk. -/
theorem map_toWalk_round? (hmarked : ∀ v, v ∈ s.marked ↔ v ∈ s.path) :
    (s.round? g).map toWalk = s.toWalk.step? g := by
  cases hframes : s.frames with
  | nil => simp [round?, Walk.step?, toWalk, hframes]
  | cons top rest =>
    cases hnode : top.successors[top.next]? with
    | none =>
      have hpending : top.pending = [] := List.drop_eq_nil_of_le
        (List.getElem?_eq_none_iff.mp hnode)
      simp [round?, Walk.step?, toWalk, hframes, hnode, hpending, pop]
    | some node =>
      have hmark : node ∈ (s.advance top rest node).marked ↔ node ∈ s.path := hmarked node
      have hseen : node ∈ (s.advance top rest node).visited ↔ node ∈ s.visited := Iff.rfl
      have hpending := pending_of_getElem? hnode
      simp only [round?, hframes, hnode, List.contains_iff_mem, hmark, hseen]
      by_cases hpath : node ∈ s.path
      · rw [if_pos hpath, close_eq (s := s.advance top rest node) hpath]
        simp [Walk.step?, toWalk, hframes, hpending, hpath, advance, Walk.closedBy]
      · rw [if_neg hpath]
        by_cases hvisited : node ∈ s.visited
        · simp [Walk.step?, toWalk, hframes, hpending, hpath, hvisited, advance]
        · simp [Walk.step?, toWalk, hframes, hpending, hpath, hvisited, advance, push, Walk.enter]

/-! ### What the books say -/

/-- The frame holds the successors of the node, and those before `next` are the ones that were
examined. -/
structure Serves (g : Graph) (examined : List (String × String)) (node : String) (f : SearchFrame) :
    Prop where
  successors_eq : f.successors = g.successors node
  next_le : f.next ≤ f.successors.length
  examined_iff : ∀ t, (node, t) ∈ examined ↔ t ∈ f.successors.take f.next

/-- The books of a search agree with each other and with the graph. -/
structure Books (g : Graph) (s : Search) : Prop where
  frames : List.Forall₂ (Serves g s.examined) s.path s.frames
  marked : ∀ v, v ∈ s.marked ↔ v ∈ s.path
  pushed_eq : s.pushed = s.visited
  visited_nodup : s.visited.Nodup
  visited_mem : ∀ v ∈ s.visited, v ∈ g.nodes
  examined_nodup : s.examined.Nodup
  examined_mem : ∀ e ∈ s.examined, e ∈ g.edges ∧ e.1 ∈ s.visited
  /-- A node that was left has no successor that was not examined. -/
  left : ∀ v ∈ s.visited, v ∉ s.path → ∀ t, g.Edge v t → (v, t) ∈ s.examined
  lost_nil : s.lost = []
  roots_mem : ∀ v ∈ s.roots, v ∈ g.nodes
  /-- Every node that is no longer to be tried has been visited. -/
  tried : ∀ v ∈ g.nodes, v ∈ s.roots ∨ v ∈ s.visited

theorem books_start (g : Graph) : Books g (start g) := by
  refine ⟨.nil, ?_, rfl, .nil, ?_, .nil, ?_, ?_, rfl, fun v hv => hv, fun v hv => .inl hv⟩
  all_goals simp [start]

/-- The frame on top serves the current node. -/
theorem Books.top (h : Books g s) {top : SearchFrame} {rest : List SearchFrame}
    (hframes : s.frames = top :: rest) :
    ∃ v path, s.path = v :: path ∧ Serves g s.examined v top ∧
    List.Forall₂ (Serves g s.examined) path rest := by
  have hall := h.frames
  rw [hframes] at hall
  cases hpath : s.path with
  | nil =>
    rw [hpath] at hall
    cases hall
  | cons v path =>
    rw [hpath] at hall
    cases hall with
    | cons htop hrest => exact ⟨v, path, rfl, htop, hrest⟩

/-! ### What a step keeps -/

theorem Serves.edge {examined : List (String × String)} {v node : String} {f : SearchFrame}
    (h : Serves g examined v f) (hnode : f.successors[f.next]? = some node) : g.Edge v node := by
  rw [← mem_successors, ← h.successors_eq]
  exact List.mem_of_getElem? hnode

/-- An edge that the frame on top has not given yet was not examined yet. -/
theorem Serves.not_mem {examined : List (String × String)} {v node : String} {f : SearchFrame}
    (h : Serves g examined v f) (hnodup : (g.successors v).Nodup)
    (hnode : f.successors[f.next]? = some node) :
    (v, node) ∉ examined := by
  obtain ⟨hlt, hget⟩ := List.getElem?_eq_some_iff.mp hnode
  rw [← h.successors_eq, ← List.take_append_drop f.next f.successors, List.drop_eq_getElem_cons hlt,
    hget] at hnodup
  rw [h.examined_iff]
  intro hmem
  exact (List.nodup_append'.mp hnodup).2.2 hmem List.mem_cons_self

theorem Serves.advance {examined : List (String × String)} {v node : String} {f : SearchFrame}
    (h : Serves g examined v f) (hnode : f.successors[f.next]? = some node) :
    Serves g ((v, node) :: examined) v { f with next := f.next + 1 } := by
  obtain ⟨hlt, hget⟩ := List.getElem?_eq_some_iff.mp hnode
  refine ⟨h.successors_eq, hlt, ?_⟩
  intro t
  have htake : f.successors.take (f.next + 1) = f.successors.take f.next ++ [node] := by
    rw [List.take_succ_eq_append_getElem hlt, hget]
  rw [htake, List.mem_append, ← h.examined_iff t, List.mem_cons, Prod.mk.injEq, List.mem_singleton]
  tauto

/-- What is examined from one node changes nothing for the others. -/
theorem Serves.other {examined : List (String × String)} {u v node : String} {f : SearchFrame}
    (hne : u ≠ v) (h : Serves g examined u f) : Serves g ((v, node) :: examined) u f := by
  refine ⟨h.successors_eq, h.next_le, ?_⟩
  intro t
  rw [← h.examined_iff t, List.mem_cons, Prod.mk.injEq]
  tauto

theorem Books.advance (hg : g.WellFormed) (h : Books g s) (hnodup : s.path.Nodup)
    (hvisited : ∀ v ∈ s.path, v ∈ s.visited) {top : SearchFrame} {rest : List SearchFrame}
    {node : String} (hframes : s.frames = top :: rest)
    (hnode : top.successors[top.next]? = some node) :
    Books g (s.advance top rest node) := by
  obtain ⟨v, path, hpath, htop, hrest⟩ := h.top hframes
  have hnew := htop.not_mem (hg.successors_nodup v) hnode
  have hexamined : (s.advance top rest node).examined = (v, node) :: s.examined := by
    simp [Search.advance, hpath]
  refine ⟨?_, h.marked, h.pushed_eq, h.visited_nodup, h.visited_mem, ?_, ?_, ?_, h.lost_nil,
    h.roots_mem, h.tried⟩
  · -- no other node of the path is the current one, so only the frame on top changes its account
    rw [hexamined]
    show List.Forall₂ _ s.path ({ top with next := top.next + 1 } :: rest)
    rw [hpath] at hnodup ⊢
    have hothers : ∀ u ∈ path, u ≠ v := fun u hu huv => (List.nodup_cons.mp hnodup).1 (huv ▸ hu)
    refine .cons (htop.advance hnode) ?_
    exact ((List.forall₂_and_left path rest).mpr ⟨hothers, hrest⟩).imp fun u f huf =>
      huf.2.other huf.1
  · rw [hexamined]
    exact List.nodup_cons.mpr ⟨hnew, h.examined_nodup⟩
  · rw [hexamined]
    intro e he
    rcases List.mem_cons.mp he with rfl | he
    · exact ⟨edge_iff.mp (htop.edge hnode), hvisited v (by simp [hpath])⟩
    · exact h.examined_mem e he
  · rw [hexamined]
    intro u hu hleft t hut
    exact List.mem_cons_of_mem _ (h.left u hu hleft t hut)

theorem Books.close (h : Books g s) {node : String} (hnode : node ∈ s.marked) :
    Books g (s.close node) := by
  rw [close_eq ((h.marked node).mp hnode)]
  exact ⟨h.frames, h.marked, h.pushed_eq, h.visited_nodup, h.visited_mem, h.examined_nodup,
    h.examined_mem, h.left, h.lost_nil, h.roots_mem, h.tried⟩

theorem Books.push (h : Books g s) {node : String} (hmem : node ∈ g.nodes)
    (hnew : node ∉ s.visited) :
    Books g (s.push g node) := by
  have hfresh : Serves g s.examined node ⟨g.successors node, 0⟩ := by
    refine ⟨rfl, Nat.zero_le _, ?_⟩
    intro t
    rw [List.take_zero]
    exact iff_of_false (fun ht => hnew (h.examined_mem _ ht).2) List.not_mem_nil
  refine ⟨.cons hfresh h.frames, ?_, ?_, ?_, ?_, h.examined_nodup, ?_, ?_, h.lost_nil, h.roots_mem,
    ?_⟩
  · intro v
    rw [Search.push, List.mem_cons, List.mem_cons, h.marked]
  · rw [Search.push, h.pushed_eq]
  · exact List.nodup_cons.mpr ⟨hnew, h.visited_nodup⟩
  · intro v hv
    rcases List.mem_cons.mp hv with rfl | hv
    · exact hmem
    · exact h.visited_mem v hv
  · intro e he
    exact ⟨(h.examined_mem e he).1, List.mem_cons_of_mem _ (h.examined_mem e he).2⟩
  · intro v hv hleft
    rw [Search.push, List.mem_cons, not_or] at hleft
    exact h.left v ((List.mem_cons.mp hv).resolve_left hleft.1) hleft.2
  · intro v hv
    exact (h.tried v hv).imp_right (List.mem_cons_of_mem _)

theorem Books.pop (h : Books g s) (hnodup : s.path.Nodup) {top : SearchFrame}
    {rest : List SearchFrame} (hframes : s.frames = top :: rest)
    (hend : top.successors.length ≤ top.next) : Books g (s.pop rest) := by
  obtain ⟨v, path, hpath, htop, hrest⟩ := h.top hframes
  have htail : (s.pop rest).path = path := by rw [Search.pop, hpath, List.tail_cons]
  rw [hpath] at hnodup
  refine ⟨?_, ?_, h.pushed_eq, h.visited_nodup, h.visited_mem, h.examined_nodup, h.examined_mem, ?_,
    h.lost_nil, h.roots_mem, h.tried⟩
  · rw [htail]
    exact hrest
  · intro u
    have hmarked : u ∈ (s.pop rest).marked ↔ u ∈ s.marked ∧ v ≠ u := by
      simp [Search.pop, hpath]
    rw [hmarked, htail, h.marked, hpath, List.mem_cons]
    constructor
    · rintro ⟨huv | hu, hne⟩
      · exact absurd huv.symm hne
      · exact hu
    · intro hu
      exact ⟨.inr hu, fun huv => (List.nodup_cons.mp hnodup).1 (huv ▸ hu)⟩
  · intro u hu hleft t hut
    rw [htail] at hleft
    by_cases huv : u = v
    · -- the frame of the node that is left has given all its successors
      subst huv
      have hall : top.successors.take top.next = g.successors u := by
        rw [List.take_of_length_le hend, htop.successors_eq]
      show (u, t) ∈ s.examined
      rw [htop.examined_iff, hall, mem_successors]
      exact hut
    · refine h.left u hu ?_ t hut
      rw [hpath, List.mem_cons, not_or]
      exact ⟨huv, hleft⟩

/-- The books are kept, and the walk inside the search is one. -/
structure Sound (g : Graph) (s : Search) : Prop where
  books : Books g s
  walk : ∃ done, Walk.Invariant g done s.toWalk

theorem sound_start (g : Graph) : Sound g (start g) :=
  ⟨books_start g, [], Walk.invariant_start g⟩

theorem Sound.path_nodup (h : Sound g s) : s.path.Nodup := by
  obtain ⟨done, hwalk⟩ := h.walk
  exact hwalk.path_nodup

theorem Sound.path_visited (h : Sound g s) : ∀ v ∈ s.path, v ∈ s.visited := by
  obtain ⟨done, hwalk⟩ := h.walk
  intro v hv
  exact (hwalk.mem_visited v).mpr (.inl hv)

/-- Between two roots path and marks are empty. -/
theorem Books.idle (h : Books g s) (hframes : s.frames = []) : s.path = [] ∧ s.marked = [] := by
  have hpath : s.path = [] := by
    have hall := h.frames
    rw [hframes] at hall
    exact List.forall₂_nil_right_iff.mp hall
  refine ⟨hpath, List.eq_nil_iff_forall_not_mem.mpr ?_⟩
  intro v hv
  have hmem := (h.marked v).mp hv
  rw [hpath] at hmem
  cases hmem

theorem Books.pushRoot_eq (h : Books g s) (hframes : s.frames = []) (roots : List String)
    (root : String) :
    pushRoot g { s with roots := roots } root = { s.push g root with roots := roots } := by
  obtain ⟨hpath, hmarked⟩ := h.idle hframes
  simp only [pushRoot, Search.push, hpath, hmarked, hframes]

theorem Sound.idle (h : Sound g s) (hframes : s.frames = []) :
    ∃ done, Walk.Idle g done s.toWalk := by
  obtain ⟨done, hwalk⟩ := h.walk
  refine ⟨done, hwalk, (h.books.idle hframes).1, ?_⟩
  rw [toWalk, hframes, List.map_nil]

/-- A root that has been visited need not be tried any more. -/
theorem Books.nextRoot (h : Books g s) {root : String} {roots : List String}
    (hroots : s.roots = root :: roots) (hseen : root ∈ s.visited) :
      Books g { s with roots := roots } := by
  refine ⟨h.frames, h.marked, h.pushed_eq, h.visited_nodup, h.visited_mem, h.examined_nodup,
    h.examined_mem, h.left, h.lost_nil, ?_, ?_⟩
  · intro v hv
    exact h.roots_mem v (hroots ▸ List.mem_cons_of_mem _ hv)
  · intro v hv
    rcases h.tried v hv with htried | hvisited
    · rw [hroots] at htried
      rcases List.mem_cons.mp htried with rfl | htried
      · exact .inr hseen
      · exact .inl htried
    · exact .inr hvisited

theorem Sound.books_round (hg : g.WellFormed) (h : Sound g s) (hs : Round g s t) : Books g t := by
  have hnodup := h.path_nodup
  have hvisited := h.path_visited
  cases hs with
  | pop top rest hframes hend => exact h.books.pop hnodup hframes hend
  | close top rest node hframes hnode hmarked =>
    exact (h.books.advance hg hnodup hvisited hframes hnode).close hmarked
  | skip top rest node hframes hnode => exact h.books.advance hg hnodup hvisited hframes hnode
  | push top rest node hframes hnode hnew =>
    obtain ⟨v, path, hpath, htop, hrest⟩ := h.books.top hframes
    have hmem : node ∈ g.nodes := hg.target_mem (htop.edge hnode)
    exact (h.books.advance hg hnodup hvisited hframes hnode).push hmem hnew

theorem Sound.toWalk_round (h : Sound g s) (hs : s.round? g = some t) :
    s.toWalk.step? g = some t.toWalk := by
  rw [← map_toWalk_round? h.books.marked, hs, Option.map_some]

/-- A root that is pushed is entered by the walk. -/
theorem Sound.toWalk_root (h : Sound g s) (hframes : s.frames = []) (roots : List String)
    (root : String) :
    (pushRoot g { s with roots := roots } root).toWalk = s.toWalk.enter g root := by
  rw [h.books.pushRoot_eq hframes]
  rfl

theorem Sound.step (hg : g.WellFormed) (h : Sound g s) (hs : Step g s t) : Sound g t := by
  cases hs with
  | round hround =>
    obtain ⟨done, hwalk⟩ := h.walk
    exact ⟨h.books_round hg (round_of_round? hround),
      hwalk.step (Walk.step_of_step? (h.toWalk_round hround))⟩
  | pass root roots hframes hroots hseen => exact ⟨h.books.nextRoot hroots hseen, h.walk⟩
  | root root roots hframes hroots hnew =>
    have hmem : root ∈ g.nodes := h.books.roots_mem root (by simp [hroots])
    obtain ⟨done, hidle⟩ := h.idle hframes
    refine ⟨?_, done, ?_⟩
    · rw [h.books.pushRoot_eq hframes]
      exact (h.books.push hmem hnew).nextRoot hroots List.mem_cons_self
    · rw [h.toWalk_root hframes]
      exact hidle.enter hnew

theorem ReachedIn.sound (hg : g.WellFormed) {n : Nat} (h : ReachedIn g n s) : Sound g s := by
  induction h with
  | start => exact sound_start g
  | step _ hs ih => exact ih.step hg (step_of_step? hs)

/-! ### Counting steps -/

theorem Books.length_advance (h : Books g s) {top : SearchFrame} {rest : List SearchFrame}
    (node : String) (hframes : s.frames = top :: rest) :
      (s.advance top rest node).examined.length = s.examined.length + 1 := by
  obtain ⟨v, path, hpath, -, -⟩ := h.top hframes
  simp [Search.advance, hpath]

/-- Every step tries a root, examines an edge or leaves a node. -/
theorem Sound.count_step (h : Sound g s) (hs : Step g s t) :
    t.path.length + t.roots.length + s.examined.length + s.pushed.length + 1 =
      s.path.length + s.roots.length + t.examined.length + t.pushed.length := by
  cases hs with
  | round hround =>
    have hcases := round_of_round? hround
    rw [hcases.roots_eq]
    cases hcases with
    | pop top rest hframes hend =>
      obtain ⟨v, path, hpath, -, -⟩ := h.books.top hframes
      simp only [Search.pop, hpath, List.tail_cons, List.length_cons]
      omega
    | close top rest node hframes hnode hmarked =>
      have hlength := h.books.length_advance node hframes
      have hpath : node ∈ s.path := (h.books.marked node).mp hmarked
      rw [close_eq (s := s.advance top rest node) hpath]
      simp only [hlength]
      simp only [Search.advance]
      omega
    | skip top rest node hframes hnode =>
      have hlength := h.books.length_advance node hframes
      rw [hlength]
      simp only [Search.advance]
      omega
    | push top rest node hframes hnode hnew =>
      have hlength := h.books.length_advance node hframes
      simp only [Search.push, hlength, List.length_cons]
      simp only [Search.advance]
      omega
  | pass root roots hframes hroots hseen =>
    simp only [hroots, List.length_cons]
    omega
  | root root roots hframes hroots hnew =>
    rw [h.books.pushRoot_eq hframes]
    simp only [Search.push, hroots, List.length_cons]
    omega

theorem ReachedIn.count (hg : g.WellFormed) {n : Nat} (h : ReachedIn g n s) :
    n + s.path.length + s.roots.length = g.nodes.length + s.examined.length + s.pushed.length := by
  induction h with
  | start => simp [Search.start]
  | step h hs ih =>
    have hstep := (h.sound hg).count_step (step_of_step? hs)
    omega

/-- The nodes and edges of the graph bound the number of steps. -/
theorem ReachedIn.le (hg : g.WellFormed) {n : Nat} (h : ReachedIn g n s) :
    n ≤ 2 * g.nodes.length + g.edges.length := by
  have hbooks := (h.sound hg).books
  have hcount := h.count hg
  have hpushed : s.pushed.length ≤ g.nodes.length := by
    rw [hbooks.pushed_eq]
    exact (List.subperm_of_subset hbooks.visited_nodup hbooks.visited_mem).length_le
  have hexamined : s.examined.length ≤ g.edges.length :=
    (List.subperm_of_subset hbooks.examined_nodup fun e he =>
      (hbooks.examined_mem e he).1).length_le
  omega

theorem exists_end (hg : g.WellFormed) : ∃ n s, ReachedIn g n s ∧ s.step? g = none := by
  by_contra hnone
  push Not at hnone
  have hall : ∀ n, ∃ s, ReachedIn g n s := by
    intro n
    induction n with
    | zero => exact ⟨_, .start⟩
    | succ n ih =>
      obtain ⟨s, hs⟩ := ih
      obtain ⟨t, ht⟩ := Option.ne_none_iff_exists'.mp (hnone n s hs)
      exact ⟨t, .step hs ht⟩
  obtain ⟨s, hs⟩ := hall (2 * g.nodes.length + g.edges.length + 1)
  have hle := hs.le hg
  omega

/-- At the end every node has been pushed and every edge examined. -/
theorem Books.closed (hg : g.WellFormed) (h : Books g s) (hframes : s.frames = [])
    (hroots : s.roots = []) :
    s.pushed.Perm g.nodes ∧ s.examined.Perm g.edges := by
  have hall : ∀ v ∈ g.nodes, v ∈ s.visited := by
    intro v hv
    have htried := h.tried v hv
    rw [hroots] at htried
    exact htried.resolve_left List.not_mem_nil
  have hpath := (h.idle hframes).1
  constructor
  · rw [h.pushed_eq]
    refine (List.perm_ext_iff_of_nodup h.visited_nodup hg.nodes_nodup).mpr fun v => ?_
    exact ⟨h.visited_mem v, hall v⟩
  · refine (List.perm_ext_iff_of_nodup h.examined_nodup hg.edges_nodup).mpr fun e => ?_
    refine ⟨fun he => (h.examined_mem e he).1, fun he => ?_⟩
    have hedge : g.Edge e.1 e.2 := edge_iff.mpr he
    have hleft : e.1 ∉ s.path := by simp [hpath]
    exact h.left e.1 (hall e.1 (hg.source_mem hedge)) hleft e.2 hedge

/-! ### The end of the search -/

/-- The walks that are still to be done end in `w`. -/
def LeadsTo (g : Graph) (s : Search) (w : Walk) : Prop :=
  ∃ fuel, (Walk.run g fuel s.toWalk).pending = [] ∧
    s.roots.foldl (Walk.walkFrom g) (Walk.run g fuel s.toWalk) = w

/-- Between two roots the next walk is the one from the next root. -/
theorem Sound.leadsTo (h : Sound g s) (hframes : s.frames = []) {root : String}
    {roots : List String} (hroots : s.roots = root :: roots) :
    LeadsTo g s (roots.foldl (Walk.walkFrom g) (s.toWalk.walkFrom g root)) := by
  obtain ⟨done, hidle⟩ := h.idle hframes
  refine ⟨0, hidle.pending_nil, ?_⟩
  rw [hroots, List.foldl_cons, Walk.run]

theorem LeadsTo.of_step (hg : g.WellFormed) (h : Sound g s) (hs : Step g s t) {w : Walk}
    (ht : LeadsTo g t w) :
    LeadsTo g s w := by
  obtain ⟨fuel, hend, rfl⟩ := ht
  cases hs with
  | round hround =>
    have hrun : Walk.run g (fuel + 1) s.toWalk = Walk.run g fuel t.toWalk := by
      rw [Walk.run, h.toWalk_round hround]
    refine ⟨fuel + 1, ?_, ?_⟩
    · rw [hrun]
      exact hend
    · rw [hrun, (round_of_round? hround).roots_eq]
  | pass root roots hframes hroots hseen =>
    obtain ⟨done, hidle⟩ := h.idle hframes
    have hrun : Walk.run g fuel s.toWalk = s.toWalk.walkFrom g root := by
      have hmem : root ∈ s.toWalk.visited := hseen
      rw [Walk.run_eq_self hidle.pending_nil]
      simp [Walk.walkFrom, hmem]
    have hlead := h.leadsTo hframes hroots
    rw [← hrun] at hlead
    exact hlead
  | root root roots hframes hroots hnew =>
    have hmem : root ∈ g.nodes := h.books.roots_mem root (by simp [hroots])
    obtain ⟨done, hidle⟩ := h.idle hframes
    obtain ⟨done', hwalked, -, -⟩ := hidle.walkFrom hg hmem
    have hwalk : s.toWalk.walkFrom g root =
        Walk.run g (g.nodes.length + g.edges.length) (s.toWalk.enter g root) := by
      have hnotMem : root ∉ s.toWalk.visited := hnew
      simp [Walk.walkFrom, hnotMem]
    rw [h.toWalk_root hframes] at hend ⊢
    have hrun : Walk.run g fuel (s.toWalk.enter g root) = s.toWalk.walkFrom g root := by
      rw [hwalk]
      refine Walk.run_unique hend ?_
      rw [← hwalk]
      exact hwalked.pending_nil
    rw [hrun]
    exact h.leadsTo hframes hroots

/-- Where the search ends, the walks from all nodes end. -/
theorem ReachedIn.leadsTo (hg : g.WellFormed) {n : Nat} (h : ReachedIn g n s) {w : Walk}
    (hw : LeadsTo g s w) :
    LeadsTo g (Search.start g) w := by
  induction h with
  | start => exact hw
  | step h hs ih => exact ih (hw.of_step hg (h.sound hg) (step_of_step? hs))

theorem toWalk_end (hg : g.WellFormed) {n : Nat} (h : ReachedIn g n s) (hend : s.step? g = none) :
    s.toWalk = g.nodes.foldl (Walk.walkFrom g) .start := by
  obtain ⟨hframes, hroots⟩ := step?_eq_none hend
  obtain ⟨done, hidle⟩ := (h.sound hg).idle hframes
  have hlast : LeadsTo g s s.toWalk := ⟨0, hidle.pending_nil, by rw [hroots]; rfl⟩
  obtain ⟨fuel, -, hfold⟩ := h.leadsTo hg hlast
  have hstart : Walk.run g fuel (start g).toWalk = .start := Walk.run_eq_self rfl fuel
  rw [hstart] at hfold
  exact hfold.symm

/-! ### The books at every step -/

/-- What holds between the parts of a search at the start of every round. -/
structure Consistent (g : Graph) (s : Search) : Prop where
  length_eq : s.path.length = s.frames.length
  path_nodup : s.path.Nodup
  marked_iff : ∀ v, v ∈ s.marked ↔ v ∈ s.path
  marked_visited : ∀ v ∈ s.marked, v ∈ s.visited
  chain : s.path.reverse.IsChain g.Edge
  frame : ∀ (i : Nat) (v : String) (f : SearchFrame), s.path[i]? = some v → s.frames[i]? = some f →
    Serves g s.examined v f

theorem Sound.consistent (h : Sound g s) : Consistent g s := by
  obtain ⟨done, hwalk⟩ := h.walk
  refine ⟨h.books.frames.length_eq, hwalk.path_nodup, h.books.marked, ?_, ?_, ?_⟩
  · intro v hv
    exact h.path_visited v ((h.books.marked v).mp hv)
  · exact List.isChain_reverse.mpr hwalk.chain
  · intro i v f hv hf
    obtain ⟨hi, rfl⟩ := List.getElem?_eq_some_iff.mp hv
    obtain ⟨hj, rfl⟩ := List.getElem?_eq_some_iff.mp hf
    exact (List.forall₂_iff_get.mp h.books.frames).2 i hi hj

/-- At every step the parts of the search agree, no marked node is missing on the path, and a round
is a step of the walk. The search comes to its end, in one step for each root tried, each edge
examined and each node left; then every node has been pushed once and every edge examined once, and
the walks from all nodes are done. -/
theorem search_keeps_books (additions : List Addition) :
    let g := ofAdditions additions
    (∀ n s, ReachedIn g n s → Consistent g s ∧ s.lost = [] ∧
      (s.round? g).map toWalk = s.toWalk.step? g ∧
        n ≤ 2 * g.nodes.length + g.edges.length) ∧
      ∃ s, ReachedIn g (2 * g.nodes.length + g.edges.length) s ∧ s.step? g = none ∧
        s.pushed.Nodup ∧ s.pushed.Perm g.nodes ∧ s.examined.Nodup ∧ s.examined.Perm g.edges ∧
        s.toWalk = g.nodes.foldl (Walk.walkFrom g) .start := by
  intro g
  have hg : g.WellFormed := wellFormed_ofAdditions additions
  constructor
  · intro n s hs
    have hsound := hs.sound hg
    exact ⟨hsound.consistent, hsound.books.lost_nil, map_toWalk_round? hsound.books.marked,
      hs.le hg⟩
  · obtain ⟨n, s, hs, hend⟩ := exists_end hg
    obtain ⟨hframes, hroots⟩ := step?_eq_none hend
    have hbooks := (hs.sound hg).books
    obtain ⟨hpushed, hexamined⟩ := hbooks.closed hg hframes hroots
    have hsteps : n = 2 * g.nodes.length + g.edges.length := by
      have hcount := hs.count hg
      rw [(hbooks.idle hframes).1, hroots, hpushed.length_eq, hexamined.length_eq] at hcount
      simp only [List.length_nil] at hcount
      omega
    exact ⟨s, hsteps ▸ hs, hend, hpushed.nodup_iff.mpr hg.nodes_nodup, hpushed,
      hbooks.examined_nodup, hexamined, toWalk_end hg hs hend⟩

end Search

end CodeSurvey.Graph
