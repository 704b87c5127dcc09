import CodeSurvey.Proofs.Graph.Walk
import Mathlib.Algebra.Order.BigOperators.Group.List
import Mathlib.Algebra.Order.Group.Nat
import Mathlib.Tactic.Ring

/-!
# The walk comes to its end

Every step takes one unit of the work that is left: a successor to be examined, or a node to be
left. Nodes and edges together are therefore fuel enough, and after a walk from every node all nodes
have been visited and left.
-/
namespace CodeSurvey.Graph

/-- The steps that a node costs: its successors are examined and then it is left. -/
def cost (g : Graph) (v : String) : Nat :=
  (g.successors v).length + 1

private theorem sum_filter_source_le (nodes : List String) (hnodup : nodes.Nodup)
    (edges : List (String × String)) :
    (nodes.map fun v => (edges.filter fun e => e.1 == v).length).sum ≤ edges.length := by
  induction nodes generalizing edges with
  | nil => simp
  | cons v nodes ih =>
    obtain ⟨hv, hnodes⟩ := List.nodup_cons.mp hnodup
    have hrest : (nodes.map fun u => (edges.filter fun e => e.1 == u).length) =
        nodes.map fun u => ((edges.filter fun e => !(e.1 == v)).filter fun e =>
          e.1 == u).length := by
      apply List.map_congr_left
      intro u hu
      have huv : u ≠ v := fun h => hv (h ▸ hu)
      rw [List.filter_filter]
      congr 1
      apply List.filter_congr
      intro e _
      by_cases he : e.1 = u <;> simp [he, huv]
    have hsplit := List.length_eq_length_filter_add (l := edges) fun e => e.1 == v
    have hle := ih hnodes (edges.filter fun e => !(e.1 == v))
    rw [List.map_cons, List.sum_cons, hrest]
    omega

theorem WellFormed.sum_cost_le {g : Graph} (h : g.WellFormed) :
    (g.nodes.map g.cost).sum ≤ g.nodes.length + g.edges.length := by
  have hle := sum_filter_source_le g.nodes h.nodes_nodup g.edges
  have hsum : (g.nodes.map g.cost).sum =
      (g.nodes.map fun v => (g.edges.filter fun e => e.1 == v).length).sum + g.nodes.length := by
    rw [show g.cost = fun v => (g.edges.filter fun e => e.1 == v).length + 1 from
      funext fun v => by simp [cost, successors]]
    simp [List.sum_map_add]
  omega

namespace Walk

/-- The work that is left in a walk and in the nodes that it has not seen. -/
def work (g : Graph) (w : Walk) : Nat :=
  (w.pending.map fun rest => rest.length + 1).sum +
    ((g.nodes.filter fun v => !w.visited.contains v).map g.cost).sum

private theorem sum_unseen_cons_le (cost : String → Nat) (next : String)
    (visited nodes : List String) (hmem : next ∈ nodes) (hnew : next ∉ visited) :
    ((nodes.filter fun v => !(next :: visited).contains v).map cost).sum + cost next ≤
      ((nodes.filter fun v => !visited.contains v).map cost).sum := by
  have hsub : ∀ vs : List String,
      ((vs.filter fun v => !(next :: visited).contains v).map cost).sum ≤
        ((vs.filter fun v => !visited.contains v).map cost).sum := by
    intro vs
    refine ((List.Sublist.map cost ?_).sum_le_sum fun _ _ => Nat.zero_le _)
    refine List.monotone_filter_right vs fun v hv => ?_
    simp_all
  induction nodes with
  | nil => cases hmem
  | cons v nodes ih =>
    by_cases hv : v = next
    · subst hv
      have hle := hsub nodes
      rw [List.filter_cons_of_neg (by simp), List.filter_cons_of_pos (by simpa using hnew),
        List.map_cons, List.sum_cons]
      omega
    · have hle := ih ((List.mem_cons.mp hmem).resolve_left (Ne.symm hv))
      by_cases hseen : v ∈ visited
      · simpa [List.filter_cons, hseen] using hle
      · rw [List.filter_cons_of_pos (by simp [hv, hseen]),
          List.filter_cons_of_pos (by simpa using hseen), List.map_cons, List.map_cons,
          List.sum_cons, List.sum_cons]
        omega

theorem Step.work_lt {g : Graph} {w w' : Walk} (h : Step g w w')
    (hnodes : ∀ rest ∈ w.pending, ∀ v ∈ rest, v ∈ g.nodes) : work g w' < work g w := by
  cases h with
  | leave rest hw => simp [work, hw]
  | close next others rest hw hp => simp [work, hw]
  | skip next others rest hw hp hv => simp [work, hw]
  | enter next others rest hw hv =>
    have hmem : next ∈ g.nodes := hnodes (next :: others) (by simp [hw]) next List.mem_cons_self
    have hle := sum_unseen_cons_le g.cost next w.visited g.nodes hmem hv
    simp only [work, Walk.enter, hw, List.map_cons, List.sum_cons, List.length_cons] at hle ⊢
    simp only [cost] at hle ⊢
    omega

theorem Frames.pending_mem {g : Graph} (hg : g.WellFormed) {settled : String → String → Prop}
    {child : Option String} {path : List String} {pending : List (List String)}
    (h : Frames g settled child path pending) : ∀ rest ∈ pending, ∀ v ∈ rest, v ∈ g.nodes := by
  induction h with
  | nil => simp
  | cons child node seen rest path pending hsplit _ _ ih =>
    intro vs hvs v hv
    rcases List.mem_cons.mp hvs with rfl | hvs
    · have hedge : g.Edge node v := by
        rw [← mem_successors, hsplit]
        exact List.mem_append_right seen hv
      exact hg.target_mem hedge
    · exact ih vs hvs v hv

theorem Frames.path_eq_nil {g : Graph} {settled : String → String → Prop} {child : Option String}
    {path : List String} {pending : List (List String)} (h : Frames g settled child path pending)
    (hp : pending = []) : path = [] := by
  cases h with
  | nil => rfl
  | cons => cases hp

theorem Invariant.pending_run {g : Graph} (hg : g.WellFormed) (fuel : Nat) {done : List String}
    {w : Walk} (h : Invariant g done w) (hfuel : work g w ≤ fuel) :
    (Walk.run g fuel w).pending = [] := by
  induction fuel generalizing done w with
  | zero =>
    cases hw : w.pending with
    | nil => exact hw
    | cons rest pending =>
      simp [work, hw] at hfuel
  | succ fuel ih =>
    cases hs : w.step? g with
    | none => simpa [Walk.run, hs] using step?_eq_none hs
    | some w' =>
      have hstep := step_of_step? hs
      obtain ⟨done', h'⟩ := h.step hstep
      have hlt := hstep.work_lt (h.frames.pending_mem hg)
      simpa [Walk.run, hs] using ih h' (by omega)

theorem Step.visited_mono {g : Graph} {w w' : Walk} (h : Step g w w') {v : String}
    (hv : v ∈ w.visited) : v ∈ w'.visited := by
  cases h with
  | leave | close | skip => exact hv
  | enter => exact List.mem_cons_of_mem _ hv

theorem visited_run {g : Graph} (fuel : Nat) {w : Walk} {v : String} (hv : v ∈ w.visited) :
    v ∈ (run g fuel w).visited :=
  run_keeps (P := fun w => v ∈ w.visited) (fun _ _ hv hs => hs.visited_mono hv) fuel hv

/-- Between two roots nothing is pending. -/
structure Idle (g : Graph) (done : List String) (w : Walk) : Prop where
  inv : Invariant g done w
  path_nil : w.path = []
  pending_nil : w.pending = []

theorem Idle.enter {g : Graph} {done : List String} {w : Walk} (h : Idle g done w) {root : String}
    (hnew : root ∉ w.visited) : Invariant g done (w.enter g root) := by
  refine Invariant.enter ?_ h.inv.settled ?_ h.inv.path_nodup h.inv.done_nodup h.inv.disjoint
    h.inv.mem_visited h.inv.cycles hnew
  · rw [h.path_nil, h.pending_nil]
    exact .nil _
  · rw [h.path_nil]
    exact .singleton root

theorem Idle.walkFrom {g : Graph} (hg : g.WellFormed) {done : List String} {w : Walk}
    (h : Idle g done w) {root : String} (hroot : root ∈ g.nodes) :
    ∃ done', Idle g done' (w.walkFrom g root) ∧ root ∈ (w.walkFrom g root).visited ∧
      ∀ v ∈ w.visited, v ∈ (w.walkFrom g root).visited := by
  by_cases hseen : root ∈ w.visited
  · refine ⟨done, ?_⟩
    simpa [Walk.walkFrom, hseen] using h
  · have henter := h.enter hseen
    have hfuel : work g (w.enter g root) ≤ g.nodes.length + g.edges.length := by
      have hle := sum_unseen_cons_le g.cost root w.visited g.nodes hroot hseen
      have hall : ((g.nodes.filter fun v => !w.visited.contains v).map g.cost).sum ≤
          (g.nodes.map g.cost).sum :=
        (List.filter_sublist.map g.cost).sum_le_sum fun _ _ => Nat.zero_le _
      have hsum := hg.sum_cost_le
      simp only [work, Walk.enter, h.pending_nil, List.map_cons, List.map_nil, List.sum_cons,
        List.sum_nil] at hle ⊢
      simp only [cost] at hle hall hsum ⊢
      omega
    have hend := henter.pending_run hg _ hfuel
    obtain ⟨done', h'⟩ := henter.run (g.nodes.length + g.edges.length)
    have hwalk : w.walkFrom g root = run g (g.nodes.length + g.edges.length) (w.enter g root) := by
      simp [Walk.walkFrom, hseen]
    rw [hwalk]
    refine ⟨done', ⟨h', h'.frames.path_eq_nil hend, hend⟩, ?_, ?_⟩
    · exact visited_run _ List.mem_cons_self
    · exact fun v hv => visited_run _ (List.mem_cons_of_mem _ hv)

theorem Idle.foldl {g : Graph} (hg : g.WellFormed) (roots : List String)
    (hroots : ∀ v ∈ roots, v ∈ g.nodes) {done : List String} {w : Walk} (h : Idle g done w) :
    ∃ done', Idle g done' (roots.foldl (Walk.walkFrom g) w) ∧
      ∀ v, v ∈ roots ∨ v ∈ w.visited → v ∈ (roots.foldl (Walk.walkFrom g) w).visited := by
  induction roots generalizing done w with
  | nil => exact ⟨done, h, by simp⟩
  | cons root roots ih =>
    obtain ⟨done₁, h₁, hroot, hmono⟩ := h.walkFrom hg (hroots root List.mem_cons_self)
    obtain ⟨done₂, h₂, hall⟩ := ih (fun v hv => hroots v (List.mem_cons_of_mem _ hv)) h₁
    refine ⟨done₂, h₂, ?_⟩
    rintro v (hv | hv)
    · rcases List.mem_cons.mp hv with rfl | hv
      · exact hall _ (.inr hroot)
      · exact hall v (.inl hv)
    · exact hall v (.inr (hmono v hv))

/-- What every step keeps, and every root that is entered, holds when all roots have been walked
from. -/
theorem Idle.foldl_keeps {g : Graph} (hg : g.WellFormed) {P : Walk → Prop}
    (hstep : ∀ w w', P w → Step g w w' → P w')
    (henter : ∀ done w root, Idle g done w → root ∉ w.visited → P w → P (w.enter g root))
    (roots : List String) (hroots : ∀ v ∈ roots, v ∈ g.nodes) {done : List String} {w : Walk}
    (h : Idle g done w) (hP : P w) : P (roots.foldl (Walk.walkFrom g) w) := by
  induction roots generalizing done w with
  | nil => exact hP
  | cons root roots ih =>
    obtain ⟨done₁, h₁, -, -⟩ := h.walkFrom hg (hroots root List.mem_cons_self)
    refine ih (fun v hv => hroots v (List.mem_cons_of_mem _ hv)) h₁ ?_
    by_cases hseen : root ∈ w.visited
    · simpa [Walk.walkFrom, hseen] using hP
    · simpa [Walk.walkFrom, hseen] using run_keeps hstep _ (henter done w root h hseen hP)

end Walk

/-- The closed paths of a graph come with an order in which all its nodes are settled. -/
theorem WellFormed.settled_closedPaths {g : Graph} (hg : g.WellFormed) :
    ∃ done : List String, done.Nodup ∧ (∀ v ∈ g.nodes, v ∈ done) ∧
      Walk.Settled g g.closedPaths done ∧ ∀ c ∈ g.closedPaths, IsCycle g c := by
  have hstart : Walk.Idle g [] Walk.start := ⟨Walk.invariant_start g, rfl, rfl⟩
  obtain ⟨done, h, hall⟩ := hstart.foldl hg g.nodes fun v hv => hv
  refine ⟨done, h.inv.done_nodup, ?_, ?_, ?_⟩
  · intro v hv
    have hvis := (h.inv.mem_visited v).mp (hall v (.inl hv))
    simpa [h.path_nil] using hvis
  · exact h.inv.settled.mono fun c hc => List.mem_reverse.mpr hc
  · exact fun c hc => h.inv.cycles c (List.mem_reverse.mp hc)

end CodeSurvey.Graph
