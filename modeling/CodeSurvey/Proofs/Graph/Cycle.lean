import CodeSurvey.Proofs.Graph.Coverage

/-!
# The cycles that are reported

Every list reported is a cycle of the graph, and every component with a cycle holds one of the lists
reported, whatever the order in which nodes and edges were added.
-/
namespace CodeSurvey.Graph

open Relation

/-! ### Cycles and reachability -/

theorem reaches_of_isChain {r : String → String → Prop} {a u : String} {l : List String}
    (hchain : (a :: l).IsChain r) (hu : u ∈ a :: l) : ReflTransGen r a u := by
  induction l generalizing a with
  | nil =>
    obtain rfl := List.mem_singleton.mp hu
    exact .refl
  | cons b l ih =>
    obtain ⟨hab, hrest⟩ := List.isChain_cons_cons.mp hchain
    rcases List.mem_cons.mp hu with rfl | hu
    · exact .refl
    · exact .head hab (ih hrest hu)

theorem IsCycle.reaches {g : Graph} {c : List String} (h : IsCycle g c) {u v : String} (hu : u ∈ c)
    (hv : v ∈ c) : ReflTransGen g.Edge u v := by
  obtain ⟨before, after, rfl⟩ := List.append_of_mem hu
  have hafter := (List.isChain_split.mp h.chain).2
  -- from `u` on to the last node, which is the first one, and from there to `v`
  have hclosed := h.closed
  rw [List.getLast?_append_of_ne_nil _ (List.cons_ne_nil u after)] at hclosed
  obtain ⟨z, hz⟩ : ∃ z, (u :: after).getLast? = some z := ⟨_, List.getLast?_cons⟩
  have huz : ReflTransGen g.Edge u z := reaches_of_isChain hafter (List.mem_of_getLast? hz)
  rw [hz] at hclosed
  obtain ⟨l, hl⟩ : ∃ l, before ++ u :: after = z :: l := List.head?_eq_some_iff.mp hclosed
  have hchain := h.chain
  rw [hl] at hchain hv
  exact huz.trans (reaches_of_isChain hchain hv)

theorem IsCycle.transGen_self {g : Graph} {c : List String} (h : IsCycle g c) :
    ∃ v, TransGen g.Edge v v := by
  match c, h with
  | [], h => exact absurd h.two_le (by simp)
  | [_], h => exact absurd h.two_le (by simp)
  | a :: b :: l, h =>
    have hab := (List.isChain_cons_cons.mp h.chain).1
    have hba : ReflTransGen g.Edge b a := h.reaches (by simp) (by simp)
    exact ⟨a, .head' hab hba⟩

/-- A walk either avoids the pairs that are joined, or goes along an edge between two of them. -/
private theorem transGen_split {g : Graph} (joined : String → String → Prop) {v w : String}
    (h : TransGen g.Edge v w) :
    TransGen (fun a b => g.Edge a b ∧ ¬ joined a b) v w ∨
      ∃ a b, ReflTransGen g.Edge v a ∧ joined a b ∧ ReflTransGen g.Edge a w := by
  induction h with
  | @single b hvb =>
    by_cases hj : joined v b
    · exact .inr ⟨v, b, .refl, hj, .single hvb⟩
    · exact .inl (.single ⟨hvb, hj⟩)
  | @tail b c hvb hbc ih =>
    rcases ih with hfree | ⟨a, t, hva, hj, hab⟩
    · by_cases hj : joined b c
      · exact .inr ⟨b, c, hvb.to_reflTransGen, hj, .single hbc⟩
      · exact .inl (hfree.tail ⟨hbc, hj⟩)
    · exact .inr ⟨a, t, hva, hj, hab.tail hbc⟩

namespace Walk

theorem Settled.of_mem {g : Graph} {found : List (List String)} {done : List String}
    (h : Settled g found done) {v : String} (hv : v ∈ done) :
    ∃ later earlier, done = later ++ v :: earlier ∧
      ∀ t ∈ g.successors v, t ∈ earlier ∨ Closed found v t := by
  induction done with
  | nil => cases hv
  | cons u done ih =>
    rcases List.mem_cons.mp hv with rfl | hv
    · exact ⟨[], done, rfl, h.1⟩
    · obtain ⟨later, earlier, rfl, hsucc⟩ := ih h.2 hv
      exact ⟨u :: later, earlier, rfl, hsucc⟩

theorem Settled.append {g : Graph} {found : List (List String)} {later earlier : List String}
    (h : Settled g found (later ++ earlier)) : Settled g found earlier := by
  induction later with
  | nil => exact h
  | cons u later ih => exact ih h.2

/-- Along edges that close nothing, one only comes to nodes that were left earlier. -/
theorem Settled.earlier_of_transGen {g : Graph} {found : List (List String)} {v w : String}
    {earlier : List String} (h : Settled g found (v :: earlier))
    (hw : TransGen (fun a b => g.Edge a b ∧ ¬ Closed found a b) v w) : w ∈ earlier := by
  induction hw with
  | single hvb => exact (h.1 _ (mem_successors.mpr hvb.1)).resolve_right hvb.2
  | tail _ hbc ih =>
    obtain ⟨later, before, rfl, hsucc⟩ := h.2.of_mem ih
    have hmem := (hsucc _ (mem_successors.mpr hbc.1)).resolve_right hbc.2
    exact List.mem_append_right _ (List.mem_cons_of_mem _ hmem)

theorem Settled.not_transGen_self {g : Graph} {found : List (List String)} {done : List String}
    (h : Settled g found done) (hnodup : done.Nodup) {v : String} (hv : v ∈ done) :
    ¬ TransGen (fun a b => g.Edge a b ∧ ¬ Closed found a b) v v := by
  intro hloop
  obtain ⟨later, earlier, rfl⟩ := List.append_of_mem hv
  have hmem := h.append.earlier_of_transGen hloop
  exact (List.nodup_cons.mp hnodup.of_append_right).1 hmem

end Walk

/-- Every node on a closed walk shares its component with a closed path. -/
theorem WellFormed.exists_closedPath {g : Graph} (hg : g.WellFormed) {v : String}
    (hv : TransGen g.Edge v v) : ∃ c ∈ g.closedPaths, ∀ u ∈ c, u ∈ g.component v := by
  obtain ⟨done, hnodup, hall, hsettled, hcycles⟩ := hg.settled_closedPaths
  have hmem : v ∈ g.nodes := by
    obtain ⟨b, hvb, -⟩ := (TransGen.head'_iff).mp hv
    exact hg.source_mem hvb
  rcases transGen_split (Closed g.closedPaths) hv with hfree | ⟨a, b, hva, hj, hav⟩
  · exact absurd hfree (hsettled.not_transGen_self hnodup (hall v hmem))
  · obtain ⟨c, hc, hlast, -⟩ := hj
    have ha : a ∈ c := List.dropLast_subset c (List.mem_of_getLast? hlast)
    refine ⟨c, hc, ?_⟩
    intro u hu
    have hcycle := hcycles c hc
    exact ⟨hva.trans (hcycle.reaches ha hu), (hcycle.reaches hu ha).trans hav⟩

/-! ### One cycle for each canonical form -/

theorem rotateToLeast_perm (nodes : List String) : (rotateToLeast nodes).Perm nodes := by
  unfold rotateToLeast
  split
  · exact .refl _
  · rename_i least _
    have happend := List.prefix_iff_eq_append.mp (List.takeWhile_prefix (l := nodes) (· != least))
    exact List.perm_append_comm.trans (.of_eq happend)

theorem canonical_perm (c : List String) : (canonical c).Perm c.dropLast := by
  simp only [canonical]
  split
  · exact (rotateToLeast_perm _).trans (List.reverse_perm _)
  · exact rotateToLeast_perm _

theorem IsCycle.mem_dropLast {g : Graph} {c : List String} (h : IsCycle g c) {u : String} :
    u ∈ c.dropLast ↔ u ∈ c := by
  refine ⟨fun hu => List.dropLast_subset c hu, ?_⟩
  match c, h with
  | [], h => exact absurd h.two_le (by simp)
  | [_], h => exact absurd h.two_le (by simp)
  | a :: b :: l, h =>
    intro hu
    have hlast := h.closed
    rw [List.head?_cons, List.getLast?_eq_some_getLast (List.cons_ne_nil _ _),
      Option.some.injEq] at hlast
    rw [← List.dropLast_append_getLast (List.cons_ne_nil a (b :: l)), ← hlast] at hu
    rcases List.mem_append.mp hu with hu | hu
    · exact hu
    · obtain rfl := List.mem_singleton.mp hu
      simp

theorem mem_of_canonical_eq {g : Graph} {c d : List String} (hc : IsCycle g c) (hd : IsCycle g d)
    (h : canonical c = canonical d) {u : String} (hu : u ∈ c) : u ∈ d := by
  rw [← hd.mem_dropLast, ← (canonical_perm d).mem_iff, ← h, (canonical_perm c).mem_iff]
  exact hc.mem_dropLast.mpr hu

private theorem mem_keepNew {kept : List (List String × List String)} {cycle : List String}
    {p : List String × List String} (h : p ∈ keepNew kept cycle) :
    p ∈ kept ∨ p = (canonical cycle, cycle) := by
  simp only [keepNew] at h
  split at h
  · exact .inl h
  · simpa using h

private theorem keepNew_key (kept : List (List String × List String)) (cycle : List String) :
    (∀ p ∈ kept, p ∈ keepNew kept cycle) ∧ ∃ p ∈ keepNew kept cycle, p.1 = canonical cycle := by
  simp only [keepNew]
  split
  · rename_i hseen
    exact ⟨fun p hp => hp, by simpa using hseen⟩
  · exact ⟨fun p hp => List.mem_append_left _ hp,
      ⟨_, List.mem_append_right _ List.mem_cons_self, rfl⟩⟩

private theorem foldl_keepNew (cs : List (List String)) (kept : List (List String × List String)) :
    (∀ p ∈ cs.foldl keepNew kept, p ∈ kept ∨ p.1 = canonical p.2 ∧ p.2 ∈ cs) ∧
      (∀ p ∈ kept, p ∈ cs.foldl keepNew kept) ∧
      ∀ c ∈ cs, ∃ p ∈ cs.foldl keepNew kept, p.1 = canonical c := by
  induction cs generalizing kept with
  | nil => simp
  | cons c cs ih =>
    obtain ⟨hfrom, hkeep, hkey⟩ := ih (keepNew kept c)
    obtain ⟨hmono, q, hq, hqc⟩ := keepNew_key kept c
    refine ⟨?_, fun p hp => hkeep p (hmono p hp), ?_⟩
    · intro p hp
      rcases hfrom p hp with hp | ⟨hkey, hp⟩
      · rcases mem_keepNew hp with hp | rfl
        · exact .inl hp
        · exact .inr ⟨rfl, List.mem_cons_self⟩
      · exact .inr ⟨hkey, List.mem_cons_of_mem _ hp⟩
    · intro d hd
      rcases List.mem_cons.mp hd with rfl | hd
      · exact ⟨q, hkeep q hq, hqc⟩
      · exact hkey d hd

theorem mem_closedPaths_of_mem_cycles {g : Graph} {c : List String} (h : c ∈ g.cycles) :
    c ∈ g.closedPaths := by
  obtain ⟨p, hp, rfl⟩ := List.mem_map.mp h
  rcases (foldl_keepNew g.closedPaths []).1 p hp with hp | ⟨-, hp⟩
  · cases hp
  · exact hp

theorem exists_cycle_of_mem_closedPaths {g : Graph} {c : List String} (h : c ∈ g.closedPaths) :
    ∃ d ∈ g.cycles, canonical d = canonical c := by
  obtain ⟨hfrom, -, hkey⟩ := foldl_keepNew g.closedPaths []
  obtain ⟨p, hp, hpc⟩ := hkey c h
  rcases hfrom p hp with hnil | ⟨hcanon, -⟩
  · cases hnil
  · exact ⟨p.2, List.mem_map.mpr ⟨p, hp, rfl⟩, hcanon ▸ hpc⟩

/-! ### Soundness and completeness -/

theorem WellFormed.isCycle_of_mem_cycles {g : Graph} (hg : g.WellFormed) {c : List String}
    (hc : c ∈ g.cycles) : IsCycle g c := by
  obtain ⟨-, -, -, -, hcycles⟩ := hg.settled_closedPaths
  exact hcycles c (mem_closedPaths_of_mem_cycles hc)

theorem WellFormed.exists_cycle {g : Graph} (hg : g.WellFormed) {v : String}
    (hv : TransGen g.Edge v v) : ∃ c ∈ g.cycles, ∀ u ∈ c, u ∈ g.component v := by
  obtain ⟨-, -, -, -, hcycles⟩ := hg.settled_closedPaths
  obtain ⟨c, hc, hcomp⟩ := hg.exists_closedPath hv
  obtain ⟨d, hd, hdc⟩ := exists_cycle_of_mem_closedPaths hc
  refine ⟨d, hd, fun u hu => hcomp u ?_⟩
  exact mem_of_canonical_eq (hg.isCycle_of_mem_cycles hd) (hcycles c hc) hdc hu

theorem IsCyclicComponent.transGen_self {g : Graph} {v : String}
    (h : g.IsCyclicComponent (g.component v)) : TransGen g.Edge v v := by
  rcases h with ⟨u, hu, hloop⟩ | ⟨a, ha, b, hb, hab⟩
  · exact .trans_right hu.1 (.head' hloop hu.2)
  · -- of two nodes one differs from `v`, and the way there and back is not empty
    have hway : ∀ u ∈ g.component v, u ≠ v → TransGen g.Edge v v := by
      intro u hu hne
      have hvu := (reflTransGen_iff_eq_or_transGen.mp hu.1).resolve_left hne
      exact hvu.trans_left hu.2
    by_cases hav : a = v
    · exact hway b hb fun hbv => hab (hav.trans hbv.symm)
    · exact hway a ha hav

/-- The cycles reported are cycles, every component with a cycle holds one of them, and none is
reported exactly when the graph has none. -/
theorem cycles_sound_and_complete (additions : List Addition) :
    let g := ofAdditions additions
    (∀ c ∈ g.cycles, IsCycle g c) ∧
      (∀ v, g.IsCyclicComponent (g.component v) → ∃ c ∈ g.cycles, ∀ u ∈ c, u ∈ g.component v) ∧
      (g.cycles = [] ↔ g.Acyclic) := by
  intro g
  have hg : g.WellFormed := wellFormed_ofAdditions additions
  refine ⟨fun c hc => hg.isCycle_of_mem_cycles hc, fun v hv => hg.exists_cycle hv.transGen_self, ?_⟩
  constructor
  · intro hnil v hv
    obtain ⟨c, hc, -⟩ := hg.exists_cycle hv
    rw [hnil] at hc
    cases hc
  · intro hacyclic
    apply List.eq_nil_iff_forall_not_mem.mpr
    intro c hc
    obtain ⟨v, hv⟩ := (hg.isCycle_of_mem_cycles hc).transGen_self
    exact hacyclic v hv

end CodeSurvey.Graph
