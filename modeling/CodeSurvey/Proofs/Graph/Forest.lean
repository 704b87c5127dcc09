import CodeSurvey.Proofs.Graph.Cycle
import Mathlib.Data.List.Rotate

/-!
# The forest of the walk

Every node but a root is entered from one other node, its parent. The walk meets a closed path where
an edge leads from a node back to one of its ancestors, so the cycles that are reported are those
that run down one branch of this forest and come back by a single edge. Another cycle may be missed,
but not without a trace: one of its edges closes a cycle that is reported.
-/
namespace CodeSurvey.Graph

/-- The nodes from a node up to its root. -/
def Branch (parent : String → Option String) : List String → Prop
  | [] => True
  | v :: path => parent v = path.head? ∧ Branch parent path

/-- Up to its last step a closed list leads from a parent to its child. -/
def Descends (parent : String → Option String) (c : List String) : Prop :=
  c.dropLast.IsChain fun a b => parent b = some a

structure IsForest (g : Graph) (parent : String → Option String) : Prop where
  edge : ∀ u v, parent v = some u → g.Edge u v
  acyclic : ∃ depth : String → Nat, ∀ u v, parent v = some u → depth u < depth v

/-- Two closed lists differ at most in where they start and in their direction. -/
def SameCycle (c d : List String) : Prop :=
  c.dropLast.IsRotated d.dropLast ∨ c.dropLast.reverse.IsRotated d.dropLast

/-- Two lists have a step in common. -/
def ShareEdge (c d : List String) : Prop :=
  ∃ a b, [a, b] <:+: c ∧ [a, b] <:+: d

/-! ### Branches -/

variable {g : Graph} {parent : String → Option String}

theorem Branch.congr {parent' : String → Option String} {path : List String}
    (h : Branch parent path) (heq : ∀ v ∈ path, parent' v = parent v) : Branch parent' path := by
  induction path with
  | nil => trivial
  | cons v path ih =>
    refine ⟨(heq v List.mem_cons_self).trans h.1,
      ih h.2 fun u hu => heq u (List.mem_cons_of_mem _ hu)⟩

theorem Branch.isChain {path : List String} (h : Branch parent path) :
    path.IsChain fun b a => parent b = some a := by
  induction path with
  | nil => exact .nil
  | cons v path ih =>
    cases path with
    | nil => exact .singleton v
    | cons u path => exact List.isChain_cons_cons.mpr ⟨h.1, ih h.2⟩

/-- The way up from a node is unique. -/
theorem Branch.isPrefix {path l : List String} (h : Branch parent path)
    (hl : l.IsChain fun b a => parent b = some a) (hhead : l.head? = path.head?) : l <+: path := by
  induction l generalizing path with
  | nil => exact List.nil_prefix
  | cons b l ih =>
    obtain ⟨path, rfl⟩ := List.head?_eq_some_iff.mp hhead.symm
    refine List.cons_prefix_cons.mpr ⟨rfl, ?_⟩
    cases l with
    | nil => exact List.nil_prefix
    | cons a l =>
      obtain ⟨hba, hl⟩ := List.isChain_cons_cons.mp hl
      exact ih h.2 hl (hba.symm.trans h.1)

/-- A way up is determined by its ends. -/
private theorem eq_of_isChain_up {l l' : List String} (hl : l.IsChain fun b a => parent b = some a)
    (hl' : l'.IsChain fun b a => parent b = some a) (hnodup : l.Nodup) (hnodup' : l'.Nodup)
    (hhead : l.head? = l'.head?) (hlast : l.getLast? = l'.getLast?) : l = l' := by
  induction l generalizing l' with
  | nil => exact (List.head?_eq_none_iff.mp hhead.symm).symm
  | cons b l ih =>
    obtain ⟨l', rfl⟩ := List.head?_eq_some_iff.mp hhead.symm
    match l, l' with
    | [], [] => rfl
    | [], a :: l' =>
      rw [List.getLast?_cons_cons] at hlast
      exact absurd (List.mem_of_getLast? hlast.symm) (List.nodup_cons.mp hnodup').1
    | a :: l, [] =>
      rw [List.getLast?_cons_cons] at hlast
      exact absurd (List.mem_of_getLast? hlast) (List.nodup_cons.mp hnodup).1
    | a :: l, a' :: l' =>
      obtain ⟨hba, hl⟩ := List.isChain_cons_cons.mp hl
      obtain ⟨hba', hl'⟩ := List.isChain_cons_cons.mp hl'
      rw [List.getLast?_cons_cons, List.getLast?_cons_cons] at hlast
      have hhead : some a = some a' := hba.symm.trans hba'
      rw [ih hl hl' hnodup.of_cons hnodup'.of_cons hhead hlast]

/-! ### Closed lists -/

theorem IsCycle.exists_eq {c : List String} (h : IsCycle g c) :
    ∃ v s, c = v :: s ++ [v] := by
  have hne : c ≠ [] := by
    rintro rfl
    exact absurd h.two_le (by simp)
  obtain ⟨l, z, rfl⟩ := (List.eq_nil_or_concat' c).resolve_left hne
  cases l with
  | nil => exact absurd h.two_le (by simp)
  | cons v s =>
    have hclosed := h.closed
    rw [List.getLast?_concat] at hclosed
    obtain rfl : v = z := Option.some.inj hclosed
    exact ⟨v, s, rfl⟩

theorem IsCycle.head?_dropLast {c : List String} (h : IsCycle g c) :
    c.dropLast.head? = c.head? := by
  obtain ⟨v, s, rfl⟩ := h.exists_eq
  rw [List.dropLast_concat]
  rfl

theorem IsCycle.eq_of_dropLast_eq {c d : List String} (hc : IsCycle g c) (hd : IsCycle g d)
    (h : c.dropLast = d.dropLast) : c = d := by
  obtain ⟨v, s, rfl⟩ := hc.exists_eq
  obtain ⟨u, t, rfl⟩ := hd.exists_eq
  rw [List.dropLast_concat, List.dropLast_concat] at h
  obtain ⟨rfl, rfl⟩ := List.cons.inj h
  rfl

theorem IsCycle.exists_closes {c : List String} (h : IsCycle g c) :
    ∃ a b, Closes c a b ∧ g.Edge a b := by
  obtain ⟨v, s, rfl⟩ := h.exists_eq
  obtain ⟨l, a, hl⟩ := (List.eq_nil_or_concat' (v :: s)).resolve_left (List.cons_ne_nil v s)
  have hchain := h.chain
  refine ⟨a, v, ⟨?_, rfl⟩, ?_⟩
  · rw [List.dropLast_concat, hl, List.getLast?_concat]
  · rw [hl, List.append_assoc] at hchain
    exact (List.isChain_cons_cons.mp hchain.right_of_append).1

theorem IsCycle.infix_of_closes {c : List String} (h : IsCycle g c) {a b : String}
    (hab : Closes c a b) :
    [a, b] <:+: c := by
  obtain ⟨v, s, rfl⟩ := h.exists_eq
  obtain ⟨hlast, hhead⟩ := hab
  obtain rfl : v = b := Option.some.inj hhead
  rw [List.dropLast_concat] at hlast
  obtain ⟨l, hl⟩ := List.getLast?_eq_some_iff.mp hlast
  exact ⟨l, [], by rw [hl]; simp⟩

theorem eq_of_closes {c d : List String} (hc : IsCycle g c) (hd : IsCycle g d)
    (hcp : Descends parent c) (hdp : Descends parent d) {a b : String} (hca : Closes c a b)
    (hda : Closes d a b) : c = d := by
  apply hc.eq_of_dropLast_eq hd
  apply List.reverse_injective
  refine eq_of_isChain_up (List.isChain_reverse.mpr hcp) (List.isChain_reverse.mpr hdp)
    (List.nodup_reverse.mpr hc.nodup) (List.nodup_reverse.mpr hd.nodup) ?_ ?_
  · rw [List.head?_reverse, List.head?_reverse, hca.1, hda.1]
  · rw [List.getLast?_reverse, List.getLast?_reverse, hc.head?_dropLast, hd.head?_dropLast, hca.2,
      hda.2]

theorem IsForest.eq_of_perm (h : IsForest g parent) {c d : List String} (hc : IsCycle g c)
    (hd : IsCycle g d) (hcp : Descends parent c) (hdp : Descends parent d)
    (hperm : c.dropLast.Perm d.dropLast) : c = d := by
  obtain ⟨depth, hdepth⟩ := h.acyclic
  -- on a branch the depth grows, so its nodes stand in one order only
  have hsorted : ∀ e : List String, Descends parent e →
      e.dropLast.Pairwise fun a b => depth a < depth b := by
    intro e he
    have hchain : e.dropLast.IsChain (Function.onFun (· < ·) depth) := he.imp fun a b => hdepth a b
    exact List.isChain_iff_pairwise.mp hchain
  refine hc.eq_of_dropLast_eq hd (hperm.eq_of_pairwise ?_ (hsorted c hcp) (hsorted d hdp))
  intro a b _ _ hab hba
  omega

/-! ### The walk and its forest -/

namespace Walk

variable {w : Walk}

/-- All cycles that run down a branch and come back by the edge from `u` to `t` have been found. -/
def Met (g : Graph) (parent : String → Option String) (w : Walk) (u t : String) : Prop :=
  ∀ c, IsCycle g c → Descends parent c → Closes c u t → c ∈ w.found

/-- The edge from `u` to `t` is still to be examined. -/
def Waits (w : Walk) (u t : String) : Prop :=
  ∃ rest, (u, rest) ∈ w.path.zip w.pending ∧ t ∈ rest

structure Grown (g : Graph) (parent : String → Option String) (w : Walk) : Prop where
  visited_nodup : w.visited.Nodup
  edge : ∀ u v, parent v = some u → g.Edge u v
  /-- A parent was visited before its children. -/
  order : ∀ u v, parent v = some u → ∃ later earlier, w.visited = later ++ v :: earlier ∧
    u ∈ earlier
  branch : Branch parent w.path
  descends : ∀ c ∈ w.found, Descends parent c
  examined : ∀ u ∈ w.visited, ∀ t, g.Edge u t → Met g parent w u t ∨ Waits w u t

theorem Grown.mem_of_parent (h : Grown g parent w) {u v : String} (huv : parent v = some u) :
    u ∈ w.visited ∧ v ∈ w.visited := by
  obtain ⟨later, earlier, hvisited, hu⟩ := h.order u v huv
  simp [hvisited, hu]

theorem grown_start (g : Graph) : Grown g (fun _ => none) start := by
  refine ⟨.nil, ?_, ?_, trivial, ?_, ?_⟩
  all_goals simp [start]

theorem descends_closedBy (hbranch : Branch parent w.path) {next : String} (hp : next ∈ w.path) :
    Descends parent (w.closedBy next) := by
  obtain ⟨tail, htail⟩ := path_eq_of_mem hp
  have hsplit : w.path = (w.path.takeWhile (· != next) ++ [next]) ++ tail := by
    rw [List.append_assoc]
    exact htail
  have hchain := hbranch.isChain
  rw [hsplit] at hchain
  have hup : ((w.path.takeWhile (· != next) ++ [next]).reverse).IsChain fun a b => parent b =
    some a :=
    List.isChain_reverse.mpr hchain.left_of_append
  rw [Descends, closedBy, List.dropLast_concat]
  simpa using hup

/-- A cycle that comes back from the current node was met just now: it is the end of the path. -/
theorem eq_closedBy_of_closes (hbranch : Branch parent w.path) {node next : String}
    {path c : List String} (hpath : w.path = node :: path) (hc : IsCycle g c)
    (hdesc : Descends parent c) (hcloses : Closes c node next) :
      next ∈ w.path ∧ c = w.closedBy next := by
  obtain ⟨v, s, rfl⟩ := hc.exists_eq
  obtain rfl : v = next := Option.some.inj hcloses.2
  have hnodup := hc.nodup
  have hlast := hcloses.1
  rw [Descends, List.dropLast_concat] at hdesc
  rw [List.dropLast_concat] at hnodup hlast
  have hprefix : (v :: s).reverse <+: w.path := by
    refine hbranch.isPrefix (List.isChain_reverse.mpr hdesc) ?_
    rw [List.head?_reverse, hlast, hpath]
    rfl
  obtain ⟨tail, htail⟩ := hprefix
  rw [List.reverse_cons, List.append_assoc] at htail
  have hbefore : w.path.takeWhile (· != v) = s.reverse := by
    rw [← htail, List.takeWhile_append_of_pos, List.singleton_append,
      List.takeWhile_cons_of_neg (by simp), List.append_nil]
    intro a ha
    have hav : a ≠ v := by
      rintro rfl
      exact (List.nodup_cons.mp hnodup).1 (List.mem_reverse.mp ha)
    simpa using hav
  refine ⟨by simp [← htail], ?_⟩
  rw [closedBy, hbefore, List.reverse_reverse]

/-! ### What a step keeps of the forest -/

theorem Waits.of_cons {node next : String} {path others : List String} {rest : List (List String)}
    (hpath : w.path = node :: path) (hw : w.pending = (next :: others) :: rest) {u t : String}
    (h : Waits w u t) :
    u = node ∧ t = next ∨ Waits { w with pending := others :: rest } u t := by
  obtain ⟨examined, hmem, ht⟩ := h
  rw [hpath, hw, List.zip_cons_cons] at hmem
  rcases List.mem_cons.mp hmem with heq | hmem
  · obtain ⟨rfl, rfl⟩ := Prod.mk.inj heq
    rcases List.mem_cons.mp ht with rfl | ht
    · exact .inl ⟨rfl, rfl⟩
    · exact .inr ⟨others, by simp [hpath], ht⟩
  · exact .inr ⟨examined, by simp [hpath, hmem], ht⟩

theorem Grown.leave (h : Grown g parent w) {rest : List (List String)}
    (hw : w.pending = [] :: rest) :
    Grown g parent { w with path := w.path.tail, pending := rest } := by
  refine ⟨h.visited_nodup, h.edge, h.order, ?_, h.descends, ?_⟩
  · cases hpath : w.path with
    | nil => trivial
    | cons node path =>
      have hbranch := h.branch
      rw [hpath] at hbranch
      exact hbranch.2
  · intro u hu t hut
    refine (h.examined u hu t hut).imp_right ?_
    rintro ⟨examined, hmem, ht⟩
    refine ⟨examined, ?_, ht⟩
    cases hpath : w.path with
    | nil => simp [hpath] at hmem
    | cons node path =>
      rw [hpath, hw, List.zip_cons_cons] at hmem
      rcases List.mem_cons.mp hmem with heq | hmem
      · obtain ⟨-, rfl⟩ := Prod.mk.inj heq
        cases ht
      · exact hmem

theorem Grown.close (h : Grown g parent w) {node next : String} {path others : List String}
    {rest : List (List String)} (hpath : w.path = node :: path)
    (hw : w.pending = (next :: others) :: rest) (hp : next ∈ w.path) :
    Grown g parent { w with pending := others :: rest, found := w.closedBy next :: w.found } := by
  refine ⟨h.visited_nodup, h.edge, h.order, h.branch, ?_, ?_⟩
  · intro c hc
    rcases List.mem_cons.mp hc with rfl | hc
    · exact descends_closedBy h.branch hp
    · exact h.descends c hc
  · intro u hu t hut
    rcases h.examined u hu t hut with hmet | hwaits
    · exact .inl fun c hc hdesc hcloses => List.mem_cons_of_mem _ (hmet c hc hdesc hcloses)
    · rcases hwaits.of_cons hpath hw with ⟨rfl, rfl⟩ | hwaits
      · refine .inl fun c hc hdesc hcloses => ?_
        rw [(eq_closedBy_of_closes h.branch hpath hc hdesc hcloses).2]
        exact List.mem_cons_self
      · exact .inr hwaits

/-- An edge to a node off the path closes nothing. -/
theorem Grown.skip (h : Grown g parent w) {node next : String} {path others : List String}
    {rest : List (List String)} (hpath : w.path = node :: path)
    (hw : w.pending = (next :: others) :: rest) (hp : next ∉ w.path) :
    Grown g parent { w with pending := others :: rest } := by
  refine ⟨h.visited_nodup, h.edge, h.order, h.branch, h.descends, ?_⟩
  intro u hu t hut
  rcases h.examined u hu t hut with hmet | hwaits
  · exact .inl hmet
  · rcases hwaits.of_cons hpath hw with ⟨rfl, rfl⟩ | hwaits
    · refine .inl fun c hc hdesc hcloses => ?_
      exact absurd (eq_closedBy_of_closes h.branch hpath hc hdesc hcloses).1 hp
    · exact .inr hwaits

/-- A node without successors in a chain is the last of it. -/
theorem getLast?_eq_of_isChain {r : String → String → Prop} {l : List String} (h : l.IsChain r)
    {v : String} (hv : v ∈ l) (hleaf : ∀ b, ¬ r v b) : l.getLast? = some v := by
  induction l with
  | nil => cases hv
  | cons a l ih =>
    cases l with
    | nil =>
      obtain rfl := List.mem_singleton.mp hv
      rfl
    | cons b l =>
      obtain ⟨hab, hrest⟩ := List.isChain_cons_cons.mp h
      rcases List.mem_cons.mp hv with rfl | hv
      · exact absurd hab (hleaf b)
      · rw [List.getLast?_cons_cons]
        exact ih hrest hv

/-- A new node becomes a child of the current one, or a root where there is none. -/
theorem Grown.enter (h : Grown g parent w) {next : String} (hnew : next ∉ w.visited)
    (hvisited : ∀ v ∈ w.path, v ∈ w.visited) (hedge : ∀ u, w.path.head? = some u → g.Edge u next) :
    Grown g (Function.update parent next w.path.head?) (w.enter g next) := by
  have hold : ∀ v ∈ w.visited, Function.update parent next w.path.head? v = parent v := by
    intro v hv
    have hne : v ≠ next := by
      rintro rfl
      exact hnew hv
    exact Function.update_of_ne hne _ _
  have hcases : ∀ u v, Function.update parent next w.path.head? v = some u →
      v = next ∧ w.path.head? = some u ∨ parent v = some u := by
    intro u v huv
    by_cases hv : v = next
    · subst hv
      rw [Function.update_self] at huv
      exact .inl ⟨rfl, huv⟩
    · rw [Function.update_of_ne hv] at huv
      exact .inr huv
  have hleaf : ∀ v, ¬ Function.update parent next w.path.head? v = some next := by
    intro v hv
    rcases hcases next v hv with ⟨-, hhead⟩ | hparent
    · exact hnew (hvisited next (List.mem_of_head? hhead))
    · exact hnew (h.mem_of_parent hparent).1
  refine ⟨List.nodup_cons.mpr ⟨hnew, h.visited_nodup⟩, ?_, ?_, ⟨Function.update_self _ _ _, ?_⟩, ?_,
    ?_⟩
  · intro u v huv
    rcases hcases u v huv with ⟨rfl, hhead⟩ | hparent
    · exact hedge u hhead
    · exact h.edge u v hparent
  · intro u v huv
    rcases hcases u v huv with ⟨rfl, hhead⟩ | hparent
    · exact ⟨[], w.visited, rfl, hvisited u (List.mem_of_head? hhead)⟩
    · obtain ⟨later, earlier, heq, hu⟩ := h.order u v hparent
      exact ⟨next :: later, earlier, by simp [Walk.enter, heq], hu⟩
  · exact h.branch.congr fun v hv => hold v (hvisited v hv)
  · intro c hc
    refine (h.descends c hc).imp fun a b hab => ?_
    rw [hold b (h.mem_of_parent hab).2, hab]
  · intro u hu t hut
    rcases List.mem_cons.mp hu with rfl | hu
    · exact .inr ⟨g.successors u, by simp [Walk.enter], mem_successors.mpr hut⟩
    rcases h.examined u hu t hut with hmet | ⟨rest, hmem, ht⟩
    · refine .inl fun c hc hdesc hcloses => hmet c hc ?_ hcloses
      -- the new node has no children, and the cycle comes back from another node
      have hnot : next ∉ c.dropLast := by
        intro hmem
        have hlast := getLast?_eq_of_isChain hdesc hmem hleaf
        rw [hcloses.1] at hlast
        exact hnew (Option.some.inj hlast ▸ hu)
      refine hdesc.imp_of_mem_imp fun a b _ hb hab => ?_
      rcases hcases a b hab with ⟨rfl, -⟩ | hparent
      · exact absurd hb hnot
      · exact hparent
    · exact .inr ⟨rest, by simp [Walk.enter, hmem], ht⟩

theorem Grown.step {done : List String} {w' : Walk} (hinv : Invariant g done w)
    (h : Grown g parent w) (hs : Step g w w') : ∃ parent', Grown g parent' w' := by
  cases hs with
  | leave rest hw => exact ⟨parent, h.leave hw⟩
  | close next others rest hw hp =>
    obtain ⟨node, -, path, hpath, -⟩ := hinv.top hw
    exact ⟨parent, h.close hpath hw hp⟩
  | skip next others rest hw hp hv =>
    obtain ⟨node, -, path, hpath, -⟩ := hinv.top hw
    exact ⟨parent, h.skip hpath hw hp⟩
  | enter next others rest hw hv =>
    obtain ⟨node, seen, path, hpath, hsplit, -⟩ := hinv.top hw
    have hsub : ∀ v ∈ w.path, v ∈ w.visited := fun v hv => (hinv.mem_visited v).mpr (.inl hv)
    have hskip := h.skip hpath hw fun hp => hv (hsub next hp)
    refine ⟨_, hskip.enter hv hsub ?_⟩
    intro u hu
    obtain rfl : node = u := by simpa [hpath] using hu
    rw [← mem_successors, hsplit]
    simp

theorem exists_grown {g : Graph} (hg : g.WellFormed) :
    ∃ parent, Grown g parent (g.nodes.foldl (walkFrom g) start) := by
  have hstart : Idle g [] start := ⟨invariant_start g, rfl, rfl⟩
  have hstep : ∀ w w', (∃ done parent, Invariant g done w ∧ Grown g parent w) → Step g w w' →
      ∃ done parent, Invariant g done w' ∧ Grown g parent w' := by
    rintro w w' ⟨done, parent, hinv, h⟩ hs
    obtain ⟨done', hinv'⟩ := hinv.step hs
    obtain ⟨parent', h'⟩ := h.step hinv hs
    exact ⟨done', parent', hinv', h'⟩
  have henter : ∀ done w root, Idle g done w → root ∉ w.visited →
      (∃ done parent, Invariant g done w ∧ Grown g parent w) →
      ∃ done parent, Invariant g done (w.enter g root) ∧ Grown g parent (w.enter g root) := by
    rintro done w root hidle hnew ⟨-, parent, -, h⟩
    refine ⟨done, _, hidle.enter hnew, h.enter hnew ?_ ?_⟩
    · simp [hidle.path_nil]
    · simp [hidle.path_nil]
  obtain ⟨-, parent, -, h⟩ := hstart.foldl_keeps hg hstep henter g.nodes (fun v hv => hv)
    ⟨[], _, invariant_start g, grown_start g⟩
  exact ⟨parent, h⟩

end Walk

private theorem exists_depth {visited : List String} (hnodup : visited.Nodup)
    (horder : ∀ u v, parent v = some u →
      ∃ later earlier, visited = later ++ v :: earlier ∧ u ∈ earlier) :
    ∃ depth : String → Nat, ∀ u v, parent v = some u → depth u < depth v := by
  refine ⟨fun v => visited.length - visited.idxOf v, ?_⟩
  intro u v huv
  obtain ⟨later, earlier, rfl, hu⟩ := horder u v huv
  have hdisj := List.disjoint_of_nodup_append hnodup
  have hv : v ∉ later := fun hmem => hdisj hmem List.mem_cons_self
  have hu' : u ∉ later := fun hmem => hdisj hmem (List.mem_cons_of_mem _ hu)
  have huv' : v ≠ u := by
    rintro rfl
    exact (List.nodup_cons.mp hnodup.of_append_right).1 hu
  have hidx := List.idxOf_lt_length_of_mem hu
  simp only [List.idxOf_append_of_notMem hv, List.idxOf_append_of_notMem hu', List.idxOf_cons_self,
    List.idxOf_cons_ne _ huv', List.length_append, List.length_cons]
  omega

/-- The closed paths of a graph are the cycles that run down a branch of some forest of its
edges. -/
theorem WellFormed.exists_forest (hg : g.WellFormed) :
    ∃ parent, IsForest g parent ∧ ∀ c, c ∈ g.closedPaths ↔ IsCycle g c ∧ Descends parent c := by
  have hstart : Walk.Idle g [] Walk.start := ⟨Walk.invariant_start g, rfl, rfl⟩
  obtain ⟨done, hidle, hall⟩ := hstart.foldl hg g.nodes fun v hv => hv
  obtain ⟨parent, h⟩ := Walk.exists_grown hg
  refine ⟨parent, ⟨h.edge, exists_depth h.visited_nodup h.order⟩, fun c => ?_⟩
  rw [closedPaths, List.mem_reverse]
  constructor
  · intro hc
    exact ⟨hidle.inv.cycles c hc, h.descends c hc⟩
  · rintro ⟨hc, hdesc⟩
    obtain ⟨a, b, hcloses, hedge⟩ := hc.exists_closes
    rcases h.examined a (hall a (.inl (hg.source_mem hedge))) b hedge with hmet | ⟨rest, hmem, -⟩
    · exact hmet c hc hdesc hcloses
    · simp [hidle.path_nil] at hmem

theorem IsForest.mem_cycles (h : IsForest g parent)
    (hpaths : ∀ c, c ∈ g.closedPaths ↔ IsCycle g c ∧ Descends parent c) (c : List String) :
    c ∈ g.cycles ↔ IsCycle g c ∧ Descends parent c := by
  refine ⟨fun hc => (hpaths c).mp (mem_closedPaths_of_mem_cycles hc), fun hc => ?_⟩
  obtain ⟨d, hd, hcanon⟩ := exists_cycle_of_mem_closedPaths ((hpaths c).mpr hc)
  have hd' := (hpaths d).mp (mem_closedPaths_of_mem_cycles hd)
  have hperm : d.dropLast.Perm c.dropLast := by
    refine (canonical_perm d).symm.trans ?_
    rw [hcanon]
    exact canonical_perm c
  exact h.eq_of_perm hd'.1 hc.1 hd'.2 hc.2 hperm ▸ hd

/-! ### Every cycle leaves a trace -/

private theorem isChain_of_forall_infix {r : String → String → Prop} {l : List String}
    (h : ∀ a b, [a, b] <:+: l → r a b) : l.IsChain r := by
  induction l with
  | nil => exact .nil
  | cons a l ih =>
    have hl := ih fun x y hxy => h x y (hxy.trans (List.suffix_cons a l).isInfix)
    cases l with
    | nil => exact .singleton a
    | cons b l => exact List.isChain_cons_cons.mpr ⟨h a b ⟨[], l, rfl⟩, hl⟩

theorem WellFormed.exists_closed_step (hg : g.WellFormed) {c : List String} (hc : IsCycle g c) :
    ∃ a b, [a, b] <:+: c ∧ Closed g.closedPaths a b := by
  obtain ⟨done, hnodup, hall, hsettled, -⟩ := hg.settled_closedPaths
  by_contra hnone
  have hfree : c.IsChain fun a b => g.Edge a b ∧ ¬ Closed g.closedPaths a b := by
    refine isChain_of_forall_infix fun a b hab => ⟨?_, fun hclosed => hnone ⟨a, b, hab, hclosed⟩⟩
    have hstep : [a, b].IsChain g.Edge := List.IsChain.infix hc.chain hab
    exact (List.isChain_cons_cons.mp hstep).1
  obtain ⟨v, s, rfl⟩ := hc.exists_eq
  have hne : s ++ [v] ≠ [] := List.append_ne_nil_of_right_ne_nil s (List.cons_ne_nil v [])
  obtain ⟨b, l, hl⟩ := List.exists_cons_of_ne_nil hne
  rw [List.cons_append, hl] at hfree
  obtain ⟨hvb, hrest⟩ := List.isChain_cons_cons.mp hfree
  have hback := reaches_of_isChain hrest (u := v) (by simp [← hl])
  exact hsettled.not_transGen_self hnodup (hall v (hg.source_mem hvb.1)) (.head' hvb hback)

/-- The lists reported are the cycles that run down a branch of a forest of edges and come back by a
single edge, no two by the same one. Every cycle has an edge by which one of them comes back, so one
that shares no edge with another cycle is reported. -/
theorem cycles_descend_forest (additions : List Addition) :
    let g := ofAdditions additions
    ∃ parent, IsForest g parent ∧ (∀ c, c ∈ g.cycles ↔ IsCycle g c ∧ Descends parent c) ∧
      (∀ r ∈ g.cycles, ∀ r' ∈ g.cycles, ∀ a b, Closes r a b → Closes r' a b → r = r') ∧
      ∀ c, IsCycle g c → (∃ r ∈ g.cycles, ∃ a b, [a, b] <:+: c ∧ Closes r a b) ∧
        ((∀ d, IsCycle g d → ShareEdge c d → SameCycle d c) → ∃ r ∈ g.cycles, SameCycle r c) := by
  intro g
  have hg : g.WellFormed := wellFormed_ofAdditions additions
  obtain ⟨parent, hforest, hpaths⟩ := hg.exists_forest
  have hcycles := hforest.mem_cycles hpaths
  refine ⟨parent, hforest, hcycles, ?_, ?_⟩
  · intro r hr r' hr' a b hrab hrab'
    obtain ⟨hr, hrp⟩ := (hcycles r).mp hr
    obtain ⟨hr', hrp'⟩ := (hcycles r').mp hr'
    exact eq_of_closes hr hr' hrp hrp' hrab hrab'
  · intro c hc
    obtain ⟨a, b, hab, r, hr, hcloses⟩ := hg.exists_closed_step hc
    have hcycle := (hpaths r).mp hr
    have hr := (hcycles r).mpr hcycle
    refine ⟨⟨r, hr, a, b, hab, hcloses⟩, fun halone => ⟨r, hr, ?_⟩⟩
    exact halone r hcycle.1 ⟨a, b, hab, hcycle.1.infix_of_closes hcloses⟩

/-- Two ways lead from `a` to `d`, and one edge leads back. -/
def diamond : List Addition :=
  [.edge "a" "b", .edge "a" "c", .edge "b" "d", .edge "c" "d", .edge "d" "a"]

/-- The node `d` has been left when the walk comes to it on the second way, so the second cycle is
missed. The edge from `d` to `a` is the trace that it leaves. -/
theorem diamond_cycle_missed :
    let g := ofAdditions diamond
    g.cycles = [["a", "b", "d", "a"]] ∧ IsCycle g ["a", "c", "d", "a"] ∧
      (∀ r ∈ g.cycles, ¬ SameCycle r ["a", "c", "d", "a"]) ∧
      ∃ a b, [a, b] <:+: ["a", "c", "d", "a"] ∧ Closes ["a", "b", "d", "a"] a b := by
  intro g
  have hcycles : g.cycles = [["a", "b", "d", "a"]] := by decide +kernel
  have hc : IsCycle g ["a", "c", "d", "a"] :=
    ⟨by decide, rfl, by decide, .cons_cons rfl (.cons_cons rfl (.cons_cons rfl (.singleton "a")))⟩
  obtain ⟨_, _, _, _, hall⟩ := cycles_descend_forest diamond
  obtain ⟨⟨r, hr, htrace⟩, -⟩ := hall _ hc
  refine ⟨hcycles, hc, ?_, ?_⟩
  · rw [hcycles]
    unfold SameCycle
    decide
  · obtain rfl : r = ["a", "b", "d", "a"] := List.mem_singleton.mp (hcycles ▸ hr)
    exact htrace

end CodeSurvey.Graph
