import CodeSurvey.Graph.Cycle
import CodeSurvey.Proofs.Graph.Basic

/-!
# The depth-first walk

One step of the walk leaves a node, closes a path, skips a node or enters one. The invariant follows
the order in which nodes are left: a successor of a node that was left had been left before, or the
edge between the two closes a path. Around a cycle the nodes cannot all have been left one before
the other, so a closed path is met.
-/
namespace CodeSurvey.Graph

/-- The last step of a closed list leads from `a` to `b`. -/
def Closes (c : List String) (a b : String) : Prop :=
  c.dropLast.getLast? = some a ∧ c.head? = some b

/-- The edge from `a` to `b` closes one of the lists. -/
def Closed (found : List (List String)) (a b : String) : Prop :=
  ∃ c ∈ found, Closes c a b

theorem Closed.mono {found found' : List (List String)} (hsub : ∀ c ∈ found, c ∈ found')
    {a b : String} (h : Closed found a b) : Closed found' a b := by
  obtain ⟨c, hc, hcloses⟩ := h
  exact ⟨c, hsub c hc, hcloses⟩

namespace Walk

/-- What one step does. -/
inductive Step (g : Graph) (w : Walk) : Walk → Prop
  | leave (rest : List (List String)) (hw : w.pending = [] :: rest) :
      Step g w { w with path := w.path.tail, pending := rest }
  | close (next : String) (others : List String) (rest : List (List String))
      (hw : w.pending = (next :: others) :: rest) (hp : next ∈ w.path) :
      Step g w { w with pending := others :: rest, found := w.closedBy next :: w.found }
  | skip (next : String) (others : List String) (rest : List (List String))
      (hw : w.pending = (next :: others) :: rest) (hp : next ∉ w.path) (hv : next ∈ w.visited) :
      Step g w { w with pending := others :: rest }
  | enter (next : String) (others : List String) (rest : List (List String))
      (hw : w.pending = (next :: others) :: rest) (hv : next ∉ w.visited) :
      Step g w (enter g { w with pending := others :: rest } next)

theorem step_of_step? {g : Graph} {w w' : Walk} (h : w.step? g = some w') : Step g w w' := by
  unfold step? at h
  split at h
  · cases h
  · rename_i rest hw
    cases h
    exact .leave rest hw
  · rename_i next others rest hw
    simp only [List.contains_iff_mem] at h
    split_ifs at h with hp hv
    · cases h
      exact .close next others rest hw hp
    · cases h
      exact .skip next others rest hw hp hv
    · cases h
      exact .enter next others rest hw hv

theorem step?_eq_none {g : Graph} {w : Walk} (h : w.step? g = none) : w.pending = [] := by
  unfold step? at h
  split at h
  · assumption
  · cases h
  · simp only at h
    split_ifs at h

/-- A node that was left has only successors that were left before it, or to which an edge closes a
path. The node left last stands in front. -/
def Settled (g : Graph) (found : List (List String)) : List String → Prop
  | [] => True
  | v :: earlier => (∀ t ∈ g.successors v, t ∈ earlier ∨ Closed found v t) ∧ Settled g found earlier

theorem Settled.mono {g : Graph} {found found' : List (List String)}
    (hsub : ∀ c ∈ found, c ∈ found') {done : List String} (h : Settled g found done) :
      Settled g found' done := by
  induction done with
  | nil => trivial
  | cons v earlier ih =>
    refine ⟨?_, ih h.2⟩
    intro t ht
    exact (h.1 t ht).imp_right (Closed.mono hsub)

/-- The path with the successors still to be examined. Those examined are settled, but for the one
through which the path goes on, `child`. -/
inductive Frames (g : Graph) (settled : String → String → Prop) :
    Option String → List String → List (List String) → Prop
  | nil (child : Option String) : Frames g settled child [] []
  | cons (child : Option String) (node : String) (seen rest path : List String)
      (pending : List (List String)) (hsplit : g.successors node = seen ++ rest)
      (hseen : ∀ t ∈ seen, settled node t ∨ child = some t)
      (hrest : Frames g settled (some node) path pending) :
      Frames g settled child (node :: path) (rest :: pending)

theorem Frames.mono {g : Graph} {settled settled' : String → String → Prop}
    (hsub : ∀ v t, settled v t → settled' v t) {child : Option String} {path : List String}
    {pending : List (List String)} (h : Frames g settled child path pending) :
    Frames g settled' child path pending := by
  induction h with
  | nil child => exact .nil child
  | cons child node seen rest path pending hsplit hseen _ ih =>
    exact .cons child node seen rest path pending hsplit
      (fun t ht => (hseen t ht).imp_left (hsub node t)) ih

/-- Once the child is settled, the frames are those of a path that ends above it. -/
theorem Frames.settle {g : Graph} {settled : String → String → Prop} {child : String}
    {path : List String} {pending : List (List String)} (hchild : ∀ v, settled v child)
    (h : Frames g settled (some child) path pending) : Frames g settled none path pending := by
  cases h with
  | nil => exact .nil none
  | cons _ node seen rest path pending hsplit hseen hrest =>
    refine .cons none node seen rest path pending hsplit ?_ hrest
    intro t ht
    rcases hseen t ht with hs | hs
    · exact .inl hs
    · obtain rfl := Option.some.inj hs
      exact .inl (hchild node)

structure Invariant (g : Graph) (done : List String) (w : Walk) : Prop where
  frames : Frames g (fun v t => t ∈ done ∨ Closed w.found v t) none w.path w.pending
  settled : Settled g w.found done
  chain : w.path.IsChain fun b a => g.Edge a b
  path_nodup : w.path.Nodup
  done_nodup : done.Nodup
  disjoint : List.Disjoint w.path done
  mem_visited : ∀ v, v ∈ w.visited ↔ v ∈ w.path ∨ v ∈ done
  cycles : ∀ c ∈ w.found, IsCycle g c

theorem invariant_start (g : Graph) : Invariant g [] start := by
  refine ⟨.nil none, trivial, .nil, .nil, .nil, ?_, ?_, ?_⟩
  all_goals simp [start]

/-- The frame on top: the current node and what was examined of its successors. -/
theorem Invariant.top {g : Graph} {done : List String} {w : Walk} (h : Invariant g done w)
    {rest : List String} {pending : List (List String)} (hw : w.pending = rest :: pending) :
    ∃ node seen path, w.path = node :: path ∧ g.successors node = seen ++ rest ∧
      (∀ t ∈ seen, t ∈ done ∨ Closed w.found node t) ∧
      Frames g (fun v t => t ∈ done ∨ Closed w.found v t) (some node) path pending := by
  have hf := h.frames
  rw [hw] at hf
  cases hp : w.path with
  | nil =>
    rw [hp] at hf
    cases hf
  | cons node path =>
    rw [hp] at hf
    cases hf with
    | cons _ _ seen _ _ _ hsplit hseen hrest =>
      refine ⟨node, seen, path, rfl, hsplit, ?_, hrest⟩
      intro t ht
      rcases hseen t ht with hs | hs
      · exact hs
      · cases hs

/-! ### Closed paths -/

theorem path_eq_of_mem {next : String} {path : List String} (hp : next ∈ path) :
    ∃ tail, path = path.takeWhile (· != next) ++ next :: tail := by
  induction path with
  | nil => cases hp
  | cons v path ih =>
    by_cases hv : v = next
    · exact ⟨path, by simp [hv]⟩
    · obtain ⟨tail, htail⟩ := ih ((List.mem_cons.mp hp).resolve_left (Ne.symm hv))
      refine ⟨tail, ?_⟩
      rw [List.takeWhile_cons_of_pos (by simpa using hv), List.cons_append, ← htail]

theorem closes_closedBy {w : Walk} {node : String} {path : List String}
    (hpath : w.path = node :: path) (next : String) : Closes (w.closedBy next) node next := by
  refine ⟨?_, rfl⟩
  rw [closedBy, List.dropLast_concat, hpath]
  by_cases h : node = next
  · rw [List.takeWhile_cons_of_neg (by simpa using h), List.reverse_nil, h]
    rfl
  · rw [List.takeWhile_cons_of_pos (by simpa using h), List.reverse_cons, ← List.cons_append,
      List.getLast?_concat]

theorem Invariant.isCycle_closedBy {g : Graph} {done : List String} {w : Walk}
    (h : Invariant g done w) {node next : String} {path : List String}
    (hpath : w.path = node :: path) (hp : next ∈ w.path) (hedge : g.Edge node next) :
      IsCycle g (w.closedBy next) := by
  obtain ⟨tail, htail⟩ := path_eq_of_mem hp
  have hsplit : w.path = (w.path.takeWhile (· != next) ++ [next]) ++ tail := by
    rw [List.append_assoc]
    exact htail
  have hnodup := h.path_nodup
  have hchain := h.chain
  rw [hsplit] at hnodup hchain
  have hseg := hchain.left_of_append
  refine ⟨by simp [closedBy], ?_, ?_, ?_⟩
  · rw [closedBy, List.getLast?_concat]
    rfl
  · have hrev := List.nodup_reverse.mpr hnodup.of_append_left
    rw [closedBy, List.dropLast_concat]
    simpa using hrev
  · -- the segment is walked backwards, and the edge from the current node closes it
    have hforward : (next :: (w.path.takeWhile (· != next)).reverse).IsChain g.Edge := by
      rw [← List.isChain_reverse] at hseg
      simpa using hseg
    refine hforward.append (.singleton next) ?_
    intro a ha b hb
    have hlast := (closes_closedBy hpath next).1
    rw [closedBy, List.dropLast_concat] at hlast
    rw [hlast] at ha
    obtain rfl := Option.some.inj ha
    obtain rfl : next = b := by simpa using hb
    exact hedge

/-! ### What a step keeps -/

theorem Invariant.leave {g : Graph} {done : List String} {w : Walk} (h : Invariant g done w)
    {rest : List (List String)} (hw : w.pending = [] :: rest) :
    ∃ node, Invariant g (node :: done) { w with path := w.path.tail, pending := rest } := by
  obtain ⟨node, seen, path, hpath, hsplit, hseen, hrest⟩ := h.top hw
  have hnodup := h.path_nodup
  have hdisj := h.disjoint
  have hchain := h.chain
  rw [hpath] at hnodup hdisj hchain
  rw [List.append_nil] at hsplit
  have hnode : node ∉ done := hdisj List.mem_cons_self
  refine ⟨node, ?_⟩
  constructor
  · rw [hpath]
    refine Frames.settle (fun v => .inl List.mem_cons_self) (hrest.mono ?_)
    exact fun v t ht => ht.imp_left (List.mem_cons_of_mem _)
  · exact ⟨hsplit ▸ hseen, h.settled⟩
  · simpa [hpath] using hchain.tail
  · simpa [hpath] using hnodup.of_cons
  · exact List.nodup_cons.mpr ⟨hnode, h.done_nodup⟩
  · simp only [hpath, List.tail_cons]
    exact List.disjoint_cons_right.mpr ⟨hnodup.notMem, List.disjoint_of_disjoint_cons_left hdisj⟩
  · intro v
    simp only [h.mem_visited, hpath, List.tail_cons, List.mem_cons]
    tauto
  · exact h.cycles

theorem Invariant.close {g : Graph} {done : List String} {w : Walk} (h : Invariant g done w)
    {next : String} {others : List String} {rest : List (List String)}
    (hw : w.pending = (next :: others) :: rest) (hp : next ∈ w.path) :
    Invariant g done { w with pending := others :: rest, found := w.closedBy next :: w.found } := by
  obtain ⟨node, seen, path, hpath, hsplit, hseen, hrest⟩ := h.top hw
  have hedge : g.Edge node next := by
    rw [← mem_successors, hsplit]
    simp
  have hmono : ∀ v t, (t ∈ done ∨ Closed w.found v t) →
      (t ∈ done ∨ Closed (w.closedBy next :: w.found) v t) :=
    fun v t ht => ht.imp_right (Closed.mono fun c => List.mem_cons_of_mem _)
  have hclosed : Closed (w.closedBy next :: w.found) node next :=
    ⟨_, List.mem_cons_self, closes_closedBy hpath next⟩
  constructor
  · rw [hpath]
    refine .cons none node (seen ++ [next]) others path rest (by simp [hsplit]) ?_
      (hrest.mono hmono)
    intro t ht
    rcases List.mem_append.mp ht with ht | ht
    · exact .inl (hmono node t (hseen t ht))
    · obtain rfl := List.mem_singleton.mp ht
      exact .inl (.inr hclosed)
  · exact h.settled.mono fun c => List.mem_cons_of_mem _
  · exact h.chain
  · exact h.path_nodup
  · exact h.done_nodup
  · exact h.disjoint
  · exact h.mem_visited
  · intro c hc
    rcases List.mem_cons.mp hc with rfl | hc
    · exact h.isCycle_closedBy hpath hp hedge
    · exact h.cycles c hc

theorem Invariant.skip {g : Graph} {done : List String} {w : Walk} (h : Invariant g done w)
    {next : String} {others : List String} {rest : List (List String)}
    (hw : w.pending = (next :: others) :: rest) (hp : next ∉ w.path) (hv : next ∈ w.visited) :
    Invariant g done { w with pending := others :: rest } := by
  obtain ⟨node, seen, path, hpath, hsplit, hseen, hrest⟩ := h.top hw
  have hdone : next ∈ done := ((h.mem_visited next).mp hv).resolve_left hp
  refine ⟨?_, h.settled, h.chain, h.path_nodup, h.done_nodup, h.disjoint, h.mem_visited, h.cycles⟩
  rw [hpath]
  refine .cons none node (seen ++ [next]) others path rest (by simp [hsplit]) ?_ hrest
  intro t ht
  rcases List.mem_append.mp ht with ht | ht
  · exact .inl (hseen t ht)
  · obtain rfl := List.mem_singleton.mp ht
    exact .inl (.inl hdone)

/-- A new node is put on a path whose frames wait for it, be it the child of the current node or a
root. -/
theorem Invariant.enter {g : Graph} {done : List String} {w : Walk} {next : String}
    (hframes : Frames g (fun v t => t ∈ done ∨ Closed w.found v t) (some next) w.path w.pending)
    (hsettled : Settled g w.found done) (hchain : (next :: w.path).IsChain fun b a => g.Edge a b)
    (hpath : w.path.Nodup) (hdone : done.Nodup) (hdisj : List.Disjoint w.path done)
    (hvisited : ∀ v, v ∈ w.visited ↔ v ∈ w.path ∨ v ∈ done) (hcycles : ∀ c ∈ w.found, IsCycle g c)
    (hnew : next ∉ w.visited) : Invariant g done (w.enter g next) := by
  rw [hvisited, not_or] at hnew
  constructor
  · exact .cons none next [] (g.successors next) w.path w.pending (by simp) (by simp) hframes
  · exact hsettled
  · exact hchain
  · exact List.nodup_cons.mpr ⟨hnew.1, hpath⟩
  · exact hdone
  · exact List.disjoint_cons_left.mpr ⟨hnew.2, hdisj⟩
  · intro v
    simp only [Walk.enter, List.mem_cons, hvisited]
    tauto
  · exact hcycles

theorem Invariant.step {g : Graph} {done : List String} {w w' : Walk} (h : Invariant g done w)
    (hs : Step g w w') : ∃ done', Invariant g done' w' := by
  cases hs with
  | leave rest hw =>
    obtain ⟨node, hn⟩ := h.leave hw
    exact ⟨_, hn⟩
  | close next others rest hw hp => exact ⟨done, h.close hw hp⟩
  | skip next others rest hw hp hv => exact ⟨done, h.skip hw hp hv⟩
  | enter next others rest hw hv =>
    obtain ⟨node, seen, path, hpath, hsplit, hseen, hrest⟩ := h.top hw
    have hedge : g.Edge node next := by
      rw [← mem_successors, hsplit]
      simp
    refine ⟨done, Invariant.enter ?_ h.settled ?_ h.path_nodup h.done_nodup h.disjoint h.mem_visited
      h.cycles hv⟩
    · simp only [hpath]
      refine .cons (some next) node (seen ++ [next]) others path rest (by simp [hsplit]) ?_ hrest
      intro t ht
      rcases List.mem_append.mp ht with ht | ht
      · exact .inl (hseen t ht)
      · obtain rfl := List.mem_singleton.mp ht
        exact .inr rfl
    · have hchain := h.chain
      simp only [hpath] at hchain ⊢
      exact List.isChain_cons_cons.mpr ⟨hedge, hchain⟩

/-- What every step keeps, a run keeps. -/
theorem run_keeps {g : Graph} {P : Walk → Prop} (hstep : ∀ w w', P w → Step g w w' → P w')
    (fuel : Nat) {w : Walk} (h : P w) : P (run g fuel w) := by
  induction fuel generalizing w with
  | zero => exact h
  | succ fuel ih =>
    cases hs : w.step? g with
    | none => simpa [run, hs] using h
    | some w' => simpa [run, hs] using ih (hstep w w' h (step_of_step? hs))

theorem Invariant.run {g : Graph} (fuel : Nat) {done : List String} {w : Walk}
    (h : Invariant g done w) :
    ∃ done', Invariant g done' (run g fuel w) := by
  refine run_keeps (P := fun w => ∃ done, Invariant g done w) ?_ fuel ⟨done, h⟩
  rintro w w' ⟨done, h⟩ hs
  exact h.step hs

end Walk

end CodeSurvey.Graph
