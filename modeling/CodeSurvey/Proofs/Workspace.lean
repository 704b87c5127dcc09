import CodeSurvey.Proofs.Table
import CodeSurvey.Workspace
import Mathlib.Data.List.Sort
import Mathlib.Data.Set.Card

/-!
# What a workspace report says

Of the workspaces with one name the last one counts, and the report is a function of these alone.
The dependents are the dependencies read the other way round, and the statistics count the pairs of
both and the kinds of the workspaces.
-/
namespace CodeSurvey

/-- The workspace that counts for a name: the last one that has it. -/
def WorkspaceTable.last? (t : WorkspaceTable) (name : String) : Option Workspace :=
  t.workspaces.reverse.find? fun w => w.name == name

/-! ### The workspaces that count -/

namespace WorkspaceTable

theorem get?_byName (t : WorkspaceTable) (name : String) : t.byName.get? name = t.last? name := by
  rw [byName, Table.get?_ofList, last?, ← List.map_reverse]
  generalize t.workspaces.reverse = ws
  induction ws with
  | nil => rfl
  | cons w ws ih =>
    rw [List.map_cons, Table.lookup_cons_eq_ite, ih]
    by_cases hname : name = w.name
    · rw [if_pos hname, List.find?_cons_of_pos (by simpa using hname.symm)]
    · rw [if_neg hname, List.find?_cons_of_neg (by simpa using Ne.symm hname)]

theorem sorted_byName (t : WorkspaceTable) : t.byName.Sorted :=
  Table.sorted_ofList _

theorem mem_byName {t : WorkspaceTable} {e : String × Workspace} :
    e ∈ t.byName ↔ t.last? e.1 = some e.2 := by
  rw [t.sorted_byName.mem_iff, get?_byName]

theorem name_of_last? {t : WorkspaceTable} {name : String} {w : Workspace}
    (h : t.last? name = some w) :
    w.name = name := by
  rw [last?] at h
  simpa using List.find?_some h

theorem isSome_last? {t : WorkspaceTable} {w : Workspace} (h : w ∈ t.workspaces) :
    (t.last? w.name).isSome = true := by
  rw [last?, List.find?_isSome]
  exact ⟨w, List.mem_reverse.2 h, beq_self_eq_true _⟩

/-- The report asks for nothing but the workspace that counts for each name. -/
theorem report?_congr {t u : WorkspaceTable} (h : ∀ name, u.last? name = t.last? name) :
    u.report? = t.report? := by
  have hnames : u.byName = t.byName := by
    apply u.sorted_byName.ext t.sorted_byName
    intro name
    rw [get?_byName, get?_byName, h]
  have hempty : ∀ {t u : WorkspaceTable}, (∀ name, u.last? name = t.last? name) →
      t.workspaces.isEmpty = true → u.workspaces.isEmpty = true := by
    intro t u h ht
    rw [List.isEmpty_iff, List.eq_nil_iff_forall_not_mem]
    intro w hw
    have hsome := isSome_last? hw
    rw [h, last?, List.isEmpty_iff.1 ht] at hsome
    cases hsome
  have hiff : u.workspaces.isEmpty = t.workspaces.isEmpty :=
    Bool.eq_iff_iff.2 ⟨hempty fun name => (h name).symm, hempty h⟩
  rw [report?, report?, hnames, hiff]

/-- Where no name is repeated, the order of the table does not matter. -/
theorem last?_of_perm {t u : WorkspaceTable} (hnames : (t.workspaces.map Workspace.name).Nodup)
    (hperm : u.workspaces.Perm t.workspaces) (name : String) : u.last? name = t.last? name := by
  have hinj := List.inj_on_of_nodup_map hnames
  have hlast : ∀ {v : WorkspaceTable}, v.workspaces.Perm t.workspaces → ∀ w,
      v.last? name = some w ↔ w ∈ t.workspaces ∧ w.name = name := by
    intro v hv w
    constructor
    · intro hw
      exact ⟨hv.mem_iff.1 (List.mem_reverse.1 (List.mem_of_find?_eq_some hw)), name_of_last? hw⟩
    · rintro ⟨hw, rfl⟩
      obtain ⟨other, hother⟩ := Option.isSome_iff_exists.1 (isSome_last? (hv.mem_iff.2 hw))
      have hmem := hv.mem_iff.1 (List.mem_reverse.1 (List.mem_of_find?_eq_some hother))
      rw [hother, hinj hmem hw (name_of_last? hother)]
  apply Option.ext
  intro w
  rw [hlast hperm, hlast (.refl _)]

end WorkspaceTable

/-! ### Dependents -/

namespace WorkspaceReport

/-- The names whose targets include the given one. -/
def sourcesOf (dependencies : Table (List String)) (target : String) : List String :=
  Table.keys (dependencies.filter fun e => target ∈ e.2)

theorem sourcesOf_cons (e : String × List String) (dependencies : Table (List String))
    (target : String) :
    sourcesOf (e :: dependencies) target =
      if target ∈ e.2 then e.1 :: sourcesOf dependencies target else sourcesOf dependencies
        target := by
  by_cases hmem : target ∈ e.2 <;> simp [sourcesOf, Table.keys, hmem]

theorem mem_sourcesOf {dependencies : Table (List String)} (h : dependencies.Sorted)
    {name target : String} :
    name ∈ sourcesOf dependencies target ↔
    ∃ targets, dependencies.get? name = some targets ∧ target ∈ targets := by
  simp only [sourcesOf, Table.keys, List.mem_map, List.mem_filter, decide_eq_true_eq, Prod.exists,
    exists_and_right, exists_eq_right, h.mem_iff]

theorem pairwise_sourcesOf {dependencies : Table (List String)} (h : dependencies.Sorted)
    (target : String) :
    (sourcesOf dependencies target).Pairwise (· < ·) :=
  List.pairwise_map.2 (h.filter _)

/-- Enters `name` under each of its targets. -/
def enterTargets (t : Table (List String)) (name : String) (targets : List String) :
    Table (List String) :=
  targets.foldl (fun t target => t.modify target [] (· ++ [name])) t

theorem invert_eq_foldl (dependencies : Table (List String)) :
    invert dependencies = dependencies.foldl (fun t e => enterTargets t e.1 e.2) [] :=
  rfl

theorem get?_enterTargets {targets : List String} (h : targets.Nodup) (name target : String)
    (t : Table (List String)) :
    (enterTargets t name targets).get? target =
      if target ∈ targets then some ((t.get? target).getD [] ++ [name]) else t.get? target := by
  rw [enterTargets]
  induction targets generalizing t with
  | nil => rfl
  | cons first targets ih =>
    obtain ⟨hfirst, hrest⟩ := List.nodup_cons.1 h
    rw [List.foldl_cons, ih hrest, Table.get?_modify]
    by_cases heq : target = first
    · subst heq
      simp [hfirst]
    · simp [heq]

theorem get?_invert {dependencies : Table (List String)} (h : ∀ e ∈ dependencies, e.2.Nodup)
    (target : String) :
    (invert dependencies).get? target =
      if sourcesOf dependencies target = [] then none else some (sourcesOf dependencies
        target) := by
  -- the names of the entries still to come are put behind those that are there
  have hfold : ∀ t : Table (List String),
      (dependencies.foldl (fun t e => enterTargets t e.1 e.2) t).get? target =
      if sourcesOf dependencies target = [] then t.get? target
      else some ((t.get? target).getD [] ++ sourcesOf dependencies target) := by
    induction dependencies with
    | nil => exact fun t => rfl
    | cons e dependencies ih =>
      rw [List.forall_mem_cons] at h
      intro t
      rw [List.foldl_cons, ih h.2, get?_enterTargets h.1, sourcesOf_cons]
      by_cases hmem : target ∈ e.2
      · by_cases hnil : sourcesOf dependencies target = [] <;> simp [hmem, hnil]
      · simp [hmem]
  rw [invert_eq_foldl, hfold]
  simp [Table.get?]

/-- The number of names in the lists of a table. -/
def pairCount (t : Table (List String)) : Nat :=
  t.foldr (fun e n => e.2.length + n) 0

theorem enterTargets_counts {t : Table (List String)} (h : t.Sorted) (name : String)
    (targets : List String) :
    (enterTargets t name targets).Sorted ∧
      pairCount (enterTargets t name targets) = pairCount t + targets.length := by
  rw [enterTargets]
  induction targets generalizing t with
  | nil => exact ⟨h, rfl⟩
  | cons target targets ih =>
    obtain ⟨hsorted, hcount⟩ := ih (h.modify target [] (· ++ [name]))
    have hone : pairCount (t.modify target [] (· ++ [name])) = pairCount t + 1 :=
      h.foldr_modify List.length rfl (fun names => by simp) target
    refine ⟨hsorted, ?_⟩
    rw [List.foldl_cons, hcount, hone, List.length_cons]
    omega

theorem invert_counts (dependencies : Table (List String)) :
    (invert dependencies).Sorted ∧ pairCount (invert dependencies) = pairCount dependencies := by
  have hfold : ∀ t : Table (List String), t.Sorted →
      (dependencies.foldl (fun t e => enterTargets t e.1 e.2) t).Sorted ∧
        pairCount (dependencies.foldl (fun t e => enterTargets t e.1 e.2) t) =
          pairCount t + pairCount dependencies := by
    induction dependencies with
    | nil => exact fun t ht => ⟨ht, rfl⟩
    | cons e dependencies ih =>
      intro t ht
      obtain ⟨hentered, hcount⟩ := enterTargets_counts ht e.1 e.2
      obtain ⟨hsorted, hrest⟩ := ih _ hentered
      refine ⟨hsorted, ?_⟩
      have hcons : pairCount (e :: dependencies) = e.2.length + pairCount dependencies := rfl
      rw [List.foldl_cons, hrest, hcount, hcons]
      omega
  obtain ⟨hsorted, hcount⟩ := hfold [] List.Pairwise.nil
  exact ⟨hsorted, hcount.trans (Nat.zero_add _)⟩

theorem length_pairs (t : Table (List String)) :
    (t.flatMap fun e => e.2.map (Prod.mk e.1)).length = pairCount t := by
  induction t with
  | nil => rfl
  | cons e t ih =>
    rw [List.flatMap_cons, List.length_append, List.length_map, ih]
    rfl

/-- The lists of a table hold one name for each pair that they make with their keys. -/
theorem pairCount_eq_ncard {t : Table (List String)} (h : t.Sorted) (hlists : ∀ e ∈ t, e.2.Nodup) :
    pairCount t = {p : String × String | ∃ targets, t.get? p.1 = some targets ∧
      p.2 ∈ targets}.ncard := by
  let pairs := t.flatMap fun e => e.2.map (Prod.mk e.1)
  have hset : {p : String × String | ∃ targets, t.get? p.1 = some targets ∧ p.2 ∈ targets} =
      ↑pairs.toFinset := by
    ext p
    simp only [Set.mem_ofPred_eq, List.coe_toFinset, pairs, List.mem_flatMap, List.mem_map,
      Prod.exists, h.mem_iff]
    constructor
    · rintro ⟨targets, htargets, hmem⟩
      exact ⟨p.1, targets, htargets, p.2, hmem, rfl⟩
    · rintro ⟨name, targets, htargets, target, hmem, rfl⟩
      exact ⟨targets, htargets, hmem⟩
  have hnodup : pairs.Nodup := by
    rw [List.nodup_flatMap]
    constructor
    · intro e he
      exact (hlists e he).map fun _ _ hpair => (Prod.mk.inj hpair).2
    · refine (List.Pairwise.imp ?_ (List.pairwise_map.1 h.nodup_keys))
      intro a b hne
      simp only [Function.onFun, List.disjoint_left, List.mem_map]
      rintro _ ⟨x, -, rfl⟩ ⟨y, -, hpair⟩
      exact hne (Prod.mk.inj hpair).1.symm
  rw [hset, Set.ncard_coe_finset, List.toFinset_card_of_nodup hnodup, length_pairs]

/-! ### Kinds -/

/-- How many workspaces there are of each kind. -/
def kindsOf (workspaces : List Workspace) : Table Nat :=
  workspaces.foldl (fun t w => t.modify w.kind 0 (· + 1)) []

theorem kindsOf_counts (workspaces : List Workspace) :
    (kindsOf workspaces).Sorted ∧
      (∀ kind, ((kindsOf workspaces).get? kind).getD 0 =
        workspaces.countP fun w => w.kind == kind) ∧
      (kindsOf workspaces).foldr (fun e n => e.2 + n) 0 = workspaces.length := by
  rw [kindsOf]
  -- from the last workspace on, as the last one is counted last
  induction workspaces using List.reverseRecOn with
  | nil => exact ⟨List.Pairwise.nil, fun _ => rfl, rfl⟩
  | append_singleton workspaces w ih =>
    obtain ⟨hsorted, hcount, htotal⟩ := ih
    rw [List.foldl_concat]
    refine ⟨hsorted.modify _ _ _, ?_, ?_⟩
    · intro kind
      rw [Table.get?_modify, List.countP_append, List.countP_singleton, ← hcount]
      by_cases hkind : kind = w.kind
      · simp [hkind]
      · simp [hkind, Ne.symm hkind]
    · have hone := hsorted.foldr_modify (fun n => n) rfl
        (fun n => rfl : ∀ n : Nat, n + 1 = n + 1) w.kind
      rw [hone, htotal, List.length_append, List.length_singleton]

end WorkspaceReport

/-! ### The report -/

namespace WorkspaceReport

/-- The dependencies of `name` include `target`. -/
def DependsOn (r : WorkspaceReport) (name target : String) : Prop :=
  ∃ targets, r.dependencies.get? name = some targets ∧ target ∈ targets

/-- The dependents of `target` include `name`. -/
def HasDependent (r : WorkspaceReport) (target name : String) : Prop :=
  ∃ names, r.dependents.get? target = some names ∧ name ∈ names

/-- What a report says about a table. -/
structure Describes (r : WorkspaceReport) (t : WorkspaceTable) : Prop where
  /-- The workspaces are those that count, in the order of their names. -/
  mem_workspaces : ∀ w, w ∈ r.workspaces ↔ t.last? w.name = some w
  names_ascend : (r.workspaces.map Workspace.name).Pairwise (· < ·)
  /-- The dependencies of a workspace that counts, in ascending order and each once. -/
  dependencies : ∀ name targets, r.dependencies.get? name = some targets ↔
    ∃ w, t.last? name = some w ∧ targets.Pairwise (· < ·) ∧ ∀ target, target ∈ targets ↔
    target ∈ w.internalDependencies
  /-- The dependents are the dependencies read the other way round. -/
  converse : ∀ name target, r.HasDependent target name ↔ r.DependsOn name target
  dependents_ascend : ∀ target names, r.dependents.get? target = some names → names.Pairwise (· < ·)
  /-- Whatever something depends on has dependents, be it in the table or not. -/
  isSome_dependents : ∀ target, (r.dependents.get? target).isSome = true ↔
    ∃ name, r.DependsOn name target
  tables_sorted : r.dependencies.Sorted ∧ r.dependents.Sorted ∧ r.kinds.Sorted
  internalEdges_eq_ncard : r.internalEdges = {p : String × String | r.DependsOn p.1 p.2}.ncard
  dependents_count : r.dependents.foldr (fun e n => e.2.length + n) 0 = r.internalEdges
  kinds_count : ∀ kind, (r.kinds.get? kind).getD 0 = r.workspaces.countP fun w => w.kind == kind
  kinds_total : r.kinds.foldr (fun e n => e.2 + n) 0 = r.workspaces.length

end WorkspaceReport

namespace WorkspaceTable

/-- The dependencies of the workspaces that count. -/
def dependencies (t : WorkspaceTable) : Table (List String) :=
  t.byName.map fun e => (e.1, sortedSet e.2.internalDependencies)

theorem get?_dependencies (t : WorkspaceTable) (name : String) :
    t.dependencies.get? name = (t.last? name).map fun w => sortedSet w.internalDependencies := by
  rw [← get?_byName]
  exact Table.lookup_map name (fun w => sortedSet w.internalDependencies) t.byName

theorem sorted_dependencies (t : WorkspaceTable) : t.dependencies.Sorted :=
  List.pairwise_map.2 t.sorted_byName

theorem nodup_of_mem_dependencies {t : WorkspaceTable} : ∀ e ∈ t.dependencies, e.2.Nodup := by
  intro e he
  obtain ⟨entry, -, rfl⟩ := List.mem_map.1 he
  refine (pairwise_sortedSet entry.2.internalDependencies).imp ?_
  intro a b hlt heq
  exact String.lt_irrefl _ (heq ▸ hlt)

/-- The report in terms of the workspaces that count. -/
def reportOf (t : WorkspaceTable) : WorkspaceReport where
  workspaces := t.byName.map Prod.snd
  dependencies := t.dependencies
  dependents := WorkspaceReport.invert t.dependencies
  circular := (Graph.ofAdjacency t.dependencies).cycles
  kinds := WorkspaceReport.kindsOf (t.byName.map Prod.snd)

theorem report?_eq_some {t : WorkspaceTable} (h : t.workspaces ≠ []) :
    t.report? = some t.reportOf := by
  rw [report?, if_neg (by simpa using h), reportOf, WorkspaceReport.kindsOf, List.foldl_map]
  rfl

theorem describes_reportOf (t : WorkspaceTable) : t.reportOf.Describes t := by
  have hinvert : ∀ target, t.reportOf.dependents.get? target = _ :=
    WorkspaceReport.get?_invert t.nodup_of_mem_dependencies
  have hsources : ∀ name target, name ∈ WorkspaceReport.sourcesOf t.dependencies target ↔
      t.reportOf.DependsOn name target :=
    fun name target => WorkspaceReport.mem_sourcesOf t.sorted_dependencies
  obtain ⟨hsorted, hpairs⟩ := WorkspaceReport.invert_counts t.dependencies
  obtain ⟨hkinds, hcount, htotal⟩ := WorkspaceReport.kindsOf_counts (t.byName.map Prod.snd)
  constructor
  case mem_workspaces =>
    intro w
    constructor
    · intro hw
      obtain ⟨e, he, rfl⟩ := List.mem_map.1 hw
      have hlast := mem_byName.1 he
      rwa [name_of_last? hlast]
    · intro hlast
      have hmem : (w.name, w) ∈ t.byName := mem_byName.2 hlast
      exact List.mem_map_of_mem hmem
  case names_ascend =>
    have hnames : (t.byName.map Prod.snd).map Workspace.name = t.byName.map Prod.fst := by
      rw [List.map_map]
      exact List.map_congr_left fun e he => name_of_last? (mem_byName.1 he)
    have hkeys : (t.byName.map Prod.fst).Pairwise (· < ·) := List.pairwise_map.2 t.sorted_byName
    rwa [← hnames] at hkeys
  case dependencies =>
    intro name targets
    have hget : t.reportOf.dependencies.get? name = _ := t.get?_dependencies name
    rw [hget, Option.map_eq_some_iff]
    constructor
    · rintro ⟨w, hw, rfl⟩
      exact ⟨w, hw, pairwise_sortedSet _, fun target => mem_sortedSet⟩
    · rintro ⟨w, hw, hascend, hmem⟩
      refine ⟨w, hw, (pairwise_sortedSet _).eq_of_mem_iff hascend fun target => ?_⟩
      rw [mem_sortedSet, hmem]
  case converse =>
    intro name target
    rw [← hsources, WorkspaceReport.HasDependent, hinvert]
    by_cases hnil : WorkspaceReport.sourcesOf t.dependencies target = []
    · simp [hnil]
    · simp [hnil]
  case dependents_ascend =>
    intro target names hnames
    rw [hinvert] at hnames
    by_cases hnil : WorkspaceReport.sourcesOf t.dependencies target = []
    · simp [hnil] at hnames
    · obtain rfl : WorkspaceReport.sourcesOf t.dependencies target =
        names := by simpa [hnil] using hnames
      exact WorkspaceReport.pairwise_sourcesOf t.sorted_dependencies target
  case isSome_dependents =>
    intro target
    rw [hinvert]
    simp only [← hsources]
    by_cases hnil : WorkspaceReport.sourcesOf t.dependencies target = []
    · simp [hnil]
    · simpa [hnil] using List.exists_mem_of_ne_nil _ hnil
  case tables_sorted => exact ⟨t.sorted_dependencies, hsorted, hkinds⟩
  case internalEdges_eq_ncard =>
    exact WorkspaceReport.pairCount_eq_ncard t.sorted_dependencies t.nodup_of_mem_dependencies
  case dependents_count => exact hpairs
  case kinds_count => exact hcount
  case kinds_total => exact htotal

/-- A table that is not empty has a report, and the report says what the table holds. Tables in
which the same workspaces count have the same report, down to the order of the cycles; so have
tables that differ in order alone, if no name is repeated. -/
theorem report?_describes (t : WorkspaceTable) (h : t.workspaces ≠ []) :
    (∃ r, t.report? = some r ∧ r.Describes t) ∧
      (∀ u : WorkspaceTable, (∀ name, u.last? name = t.last? name) → u.report? = t.report?) ∧
      ∀ u : WorkspaceTable, (t.workspaces.map Workspace.name).Nodup →
        u.workspaces.Perm t.workspaces →
        u.report? = t.report? := by
  refine ⟨⟨t.reportOf, report?_eq_some h, t.describes_reportOf⟩, fun u hu => report?_congr hu, ?_⟩
  intro u hnames hperm
  exact report?_congr (last?_of_perm hnames hperm)

/-- A workspace of which only the name, the kind and the dependencies on others matter. -/
def depending (name kind : String) (targets : List String) : Workspace :=
  ⟨name, "", kind, [], targets⟩

/-- One name stands twice, one dependency too, and one is on a workspace that is not there. -/
theorem report?_describes_repeated :
    let t : WorkspaceTable := ⟨1, [depending "b" "npm" ["d"], depending "a" "npm" ["c", "b", "c"],
      depending "b" "python" ["a"]]⟩
    t.workspaces ≠ [] ∧ ∃ r, t.report? = some r ∧ r.Describes t ∧
      r.dependencies = [("a", ["b", "c"]), ("b", ["a"])] ∧
      r.dependents = [("a", ["b"]), ("b", ["a"]), ("c", ["a"])] ∧
      r.circular = [["a", "b", "a"]] ∧ r.kinds = [("npm", 1), ("python", 1)] := by
  intro t
  have hne : t.workspaces ≠ [] := List.cons_ne_nil _ _
  obtain ⟨r, hr, hdescribes⟩ := (report?_describes t hne).1
  refine ⟨hne, r, hr, hdescribes, ?_⟩
  have hreport :
      t.report? = some ⟨[depending "a" "npm" ["c", "b", "c"], depending "b" "python" ["a"]],
        [("a", ["b", "c"]), ("b", ["a"])], [("a", ["b"]), ("b", ["a"]), ("c", ["a"])],
        [["a", "b", "a"]],
      [("npm", 1), ("python", 1)]⟩ := by
    decide +kernel
  obtain rfl := Option.some.inj (hr.symm.trans hreport)
  exact ⟨rfl, rfl, rfl, rfl⟩

end WorkspaceTable

end CodeSurvey
