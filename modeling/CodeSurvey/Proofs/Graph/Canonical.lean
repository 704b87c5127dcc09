import CodeSurvey.Proofs.Graph.Forest

/-!
# Canonical forms of cycles

Among the rotations of a list without repetitions exactly one starts with the least node. A closed
list has two such rotations, one for each direction, and its canonical form is the lesser of them.
So two closed lists have the same canonical form exactly when they differ at most in where they
start and in their direction, and keeping one list for each form reports every cycle once.
-/
namespace CodeSurvey.Graph

variable {nodes others : List String} {a b : String}

/-! ### The least node -/

/-- No node of the list comes before `a`. -/
structure IsLeastNode (nodes : List String) (a : String) : Prop where
  mem : a ∈ nodes
  not_lt : ∀ n ∈ nodes, ¬n < a

theorem IsLeastNode.unique (ha : IsLeastNode nodes a) (hb : IsLeastNode nodes b) : a = b :=
  String.le_antisymm (ha.not_lt b hb.mem) (hb.not_lt a ha.mem)

theorem IsLeastNode.of_perm (h : IsLeastNode nodes a) (hperm : nodes.Perm others) :
    IsLeastNode others a :=
  ⟨hperm.mem_iff.mp h.mem, fun n hn => h.not_lt n (hperm.mem_iff.mpr hn)⟩

private theorem isLeastNode_foldl (n : String) (nodes : List String) :
    IsLeastNode (n :: nodes) (nodes.foldl (fun least n => if n < least then n else least) n) := by
  induction nodes using List.reverseRecOn with
  | nil => exact ⟨List.mem_cons_self, fun k hk => List.mem_singleton.1 hk ▸ String.lt_irrefl n⟩
  | append_singleton nodes m ih =>
    obtain ⟨hmem, hle⟩ := ih
    rw [List.foldl_append, List.foldl_cons, List.foldl_nil]
    generalize nodes.foldl (fun least n => if n < least then n else least) n = least at hmem hle
    split
    · rename_i hlt
      refine ⟨by simp, fun k hk hkm => ?_⟩
      rw [← List.cons_append, List.mem_append, List.mem_singleton] at hk
      rcases hk with hk | rfl
      · exact hle k hk (String.lt_trans hkm hlt)
      · exact String.lt_irrefl k hkm
    · rename_i hnot
      refine ⟨by rw [← List.cons_append]; exact List.mem_append_left _ hmem, fun k hk => ?_⟩
      rw [← List.cons_append, List.mem_append, List.mem_singleton] at hk
      rcases hk with hk | rfl
      · exact hle k hk
      · exact hnot

theorem least?_eq_some_iff : least? nodes = some a ↔ IsLeastNode nodes a := by
  cases nodes with
  | nil => exact ⟨fun h => absurd h (by simp [least?]), fun h => absurd h.mem List.not_mem_nil⟩
  | cons n nodes =>
    rw [least?, Option.some_inj]
    refine ⟨fun h => h ▸ isLeastNode_foldl n nodes, fun h => (isLeastNode_foldl n nodes).unique h⟩

/-! ### Rotations -/

theorem rotateToLeast_isRotated (nodes : List String) : (rotateToLeast nodes).IsRotated nodes := by
  unfold rotateToLeast
  split
  · exact .refl _
  · rename_i least _
    have happend := List.prefix_iff_eq_append.mp (List.takeWhile_prefix (l := nodes) (· != least))
    have hrotated : (nodes.drop (nodes.takeWhile (· != least)).length ++
      nodes.takeWhile (· != least)).IsRotated
        (nodes.takeWhile (· != least) ++ nodes.drop (nodes.takeWhile (· != least)).length) :=
          List.isRotated_append
    rwa [happend] at hrotated

theorem head?_rotateToLeast (h : IsLeastNode nodes a) : (rotateToLeast nodes).head? = some a := by
  obtain ⟨tail, htail⟩ := Walk.path_eq_of_mem h.mem
  have hdrop : nodes.drop (nodes.takeWhile (· != a)).length = a :: tail := by
    nth_rewrite 2 [htail]
    exact List.drop_left
  rw [rotateToLeast, least?_eq_some_iff.mpr h]
  dsimp only
  rw [hdrop]
  rfl

/-- Of the rotations of a list without repetitions only the list itself starts as it does. -/
theorem eq_of_isRotated (h : nodes.IsRotated others) (hnodup : nodes.Nodup)
    (hhead : nodes.head? = others.head?) : nodes = others := by
  obtain ⟨k, hk, rfl⟩ := List.isRotated_iff_mod.mp h
  cases nodes with
  | nil => simp
  | cons n nodes =>
    rcases Nat.lt_or_eq_of_le hk with hlt | rfl
    · rw [List.head?_rotate hlt, List.head?_cons, eq_comm, List.getElem?_eq_some_iff] at hhead
      obtain ⟨hk, hnode⟩ := hhead
      have hfirst : (n :: nodes)[k] = (n :: nodes)[0] := hnode
      rw [hnodup.getElem_inj_iff.mp hfirst, List.rotate_zero]
    · rw [List.rotate_length]

theorem rotateToLeast_eq_iff (hnodes : nodes.Nodup) :
    rotateToLeast nodes = rotateToLeast others ↔ nodes.IsRotated others := by
  have hself := rotateToLeast_isRotated nodes
  have hother := rotateToLeast_isRotated others
  refine ⟨fun h => hself.symm.trans (h ▸ hother), fun h => ?_⟩
  refine eq_of_isRotated (hself.trans (h.trans hother.symm)) (hself.nodup_iff.mpr hnodes) ?_
  cases hleast : least? nodes with
  | none =>
    obtain rfl : nodes = [] := by
      cases nodes with
      | nil => rfl
      | cons n nodes => cases hleast
    rw [← List.isRotated_nil_iff'.mp h]
  | some a =>
    have ha := least?_eq_some_iff.mp hleast
    rw [head?_rotateToLeast ha, head?_rotateToLeast (ha.of_perm h.perm)]

/-! ### Closed lists up to rotation and direction -/

theorem canonical_eq_or (c : List String) :
    canonical c = rotateToLeast c.dropLast ∨ canonical c = rotateToLeast c.dropLast.reverse := by
  simp only [canonical]
  split
  · exact .inr rfl
  · exact .inl rfl

/-- The lesser of two lists does not depend on which one is asked for first. -/
private theorem lesser_comm (l l' : List String) :
    (if l < l' then l else l') = if l' < l then l' else l := by
  by_cases hlt : l < l'
  · rw [if_pos hlt, if_neg (List.lt_asymm hlt)]
  · by_cases hgt : l' < l
    · rw [if_neg hlt, if_pos hgt]
    · rw [if_neg hlt, if_neg hgt]
      exact List.le_antisymm hlt hgt

/-- Two closed lists have the same canonical form exactly when they are the same cycle. -/
theorem canonical_eq_iff {c d : List String} (hc : c.dropLast.Nodup) :
    canonical c = canonical d ↔ SameCycle c d := by
  constructor
  · intro h
    have hrotated : ∀ {l l' : List String}, canonical c = rotateToLeast l →
        canonical d = rotateToLeast l' →
        l.IsRotated l' := by
      intro l l' hl hl'
      have hsame := rotateToLeast_isRotated l
      rw [← hl, h, hl'] at hsame
      exact hsame.symm.trans (rotateToLeast_isRotated l')
    rcases canonical_eq_or c with hforward | hbackward <;> rcases canonical_eq_or d with hforward'
      | hbackward'
    · exact .inl (hrotated hforward hforward')
    · exact .inr (List.isRotated_reverse_comm_iff.mpr (hrotated hforward hbackward'))
    · exact .inr (hrotated hbackward hforward')
    · exact .inl (List.isRotated_reverse_iff.mp (hrotated hbackward hbackward'))
  · have hreverse : c.dropLast.reverse.Nodup := List.nodup_reverse.mpr hc
    rintro (h | h)
    · simp only [canonical]
      rw [(rotateToLeast_eq_iff hc).mpr h, (rotateToLeast_eq_iff hreverse).mpr h.reverse]
    · -- forwards and backwards change places
      simp only [canonical]
      rw [(rotateToLeast_eq_iff hreverse).mpr h,
        (rotateToLeast_eq_iff hc).mpr (List.isRotated_reverse_comm_iff.mp h), lesser_comm]

/-! ### One list for each form -/

/-- Each list is kept with its canonical form, and no form is there twice. -/
structure Keyed (kept : List (List String × List String)) : Prop where
  nodup : (kept.map Prod.fst).Nodup
  forms : ∀ p ∈ kept, p.1 = canonical p.2

theorem keyed_nil : Keyed [] :=
  ⟨.nil, by simp⟩

theorem Keyed.keepNew {kept : List (List String × List String)} (h : Keyed kept)
    (cycle : List String) :
    Keyed (keepNew kept cycle) := by
  simp only [Graph.keepNew]
  split
  · exact h
  · rename_i hnew
    have hkey : canonical cycle ∉ kept.map Prod.fst := by simpa [List.any_eq_true] using hnew
    constructor
    · rw [List.map_append]
      exact List.nodup_append'.mpr ⟨h.nodup, List.nodup_singleton _, by simpa using hkey⟩
    · intro p hp
      rcases List.mem_append.mp hp with hp | hp
      · exact h.forms p hp
      · obtain rfl := List.mem_singleton.mp hp
        rfl

theorem Keyed.foldl {kept : List (List String × List String)} (h : Keyed kept)
    (cs : List (List String)) :
    Keyed (cs.foldl Graph.keepNew kept) := by
  induction cs generalizing kept with
  | nil => exact h
  | cons c cs ih => exact ih (h.keepNew c)

/-- No two of the lists reported have the same canonical form. -/
theorem nodup_map_canonical_cycles (g : Graph) : (g.cycles.map canonical).Nodup := by
  have hkeyed := keyed_nil.foldl g.closedPaths
  have hkeys := hkeyed.nodup
  rw [cycles, List.map_map]
  rwa [List.map_congr_left hkeyed.forms] at hkeys

/-- No two of the lists reported are the same cycle, and each closed path that the walk meets is the
same cycle as exactly one of them. For the canonical form of a closed list that meets no node twice
is shared by its rotations and those of its reverse, and by no other list. -/
theorem cycles_reported_once (additions : List Addition) :
    let g := ofAdditions additions
    g.cycles.Pairwise (fun c d => ¬SameCycle c d) ∧
      (∀ c ∈ g.closedPaths, IsCycle g c ∧ ∃! r, r ∈ g.cycles ∧ SameCycle r c) ∧
      ∀ c d : List String, c.dropLast.Nodup → (canonical c = canonical d ↔ SameCycle c d) := by
  intro g
  have hg : g.WellFormed := wellFormed_ofAdditions additions
  have hforms := nodup_map_canonical_cycles g
  have hnodup : ∀ c ∈ g.cycles, c.dropLast.Nodup := fun c hc => (hg.isCycle_of_mem_cycles hc).nodup
  refine ⟨?_, ?_, fun c d hc => canonical_eq_iff hc⟩
  · refine (List.pairwise_map.mp hforms).imp_of_mem fun {c d} hc _ hne hsame => ?_
    exact hne ((canonical_eq_iff (hnodup c hc)).mpr hsame)
  · intro c hc
    obtain ⟨-, -, -, -, hcycles⟩ := hg.settled_closedPaths
    obtain ⟨r, hr, hcanon⟩ := exists_cycle_of_mem_closedPaths hc
    refine ⟨hcycles c hc, r, ⟨hr, (canonical_eq_iff (hnodup r hr)).mp hcanon⟩, ?_⟩
    rintro s ⟨hs, hsame⟩
    have hkey : canonical s = canonical r :=
      ((canonical_eq_iff (hnodup s hs)).mpr hsame).trans hcanon.symm
    exact List.inj_on_of_nodup_map hforms hs hr hkey

/-- Three nodes with edges both ways between `a` and `b` and between `b` and `c`. A rotation of the
reverse has the form of the list itself; the same four nodes in another order have another form. -/
theorem cycles_reported_once_triangle :
    let g := ofAdditions [.edge "a" "b", .edge "b" "c", .edge "c" "a", .edge "b" "a", .edge "c" "b"]
    g.cycles = [["a", "b", "c", "a"], ["b", "c", "b"], ["a", "b", "a"]] ∧
      g.cycles.Pairwise (fun c d => ¬SameCycle c d) ∧
      canonical ["c", "a", "b", "c"] = canonical ["b", "a", "c", "b"] ∧
      canonical ["a", "b", "c", "d", "a"] ≠ canonical ["a", "c", "b", "d", "a"] := by
  intro g
  obtain ⟨honce, -, hform⟩ := cycles_reported_once
    [.edge "a" "b", .edge "b" "c", .edge "c" "a", .edge "b" "a", .edge "c" "b"]
  refine ⟨by decide +kernel, honce, (hform _ _ (by decide)).mpr ?_, fun h => ?_⟩
  · unfold SameCycle
    decide
  · have hsame := (hform _ _ (by decide)).mp h
    revert hsame
    unfold SameCycle
    decide

end CodeSurvey.Graph
