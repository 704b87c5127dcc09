import CodeSurvey.Proofs.Survey.Run

/-!
# Histories of surveys

A disk is edited and surveyed again and again, with the store in one file outside of what is
surveyed. The invariant of such a history is that the file is missing or holds a faithful store;
every survey keeps it, and under it a survey gives what a survey without a store gives.
-/
namespace CodeSurvey

/-- The result without the marks of where the extractions come from. -/
def Survey.Result.unmarked (r : Survey.Result) : Survey.Result :=
  r.map fun (report, stamp) => (report.unmarked, stamp)

/-! ### The invariant -/

namespace Survey

/-- The file at `path` is missing or holds a faithful store. -/
def Kept (maxLines : Nat) (contents : Set (List UInt8)) (path : String) (d : Disk) : Prop :=
  d.read path = .error .missing ∨
    ∃ s : Cache.Store, s.Faithful .builtin maxLines contents ∧ d.read path = .ok s.print.toUTF8

variable {maxLines : Nat} {contents : Set (List UInt8)} {path : String} {d : Disk}

theorem writable_of_faithful {s : Cache.Store} (h : s.Faithful .builtin maxLines contents)
    (hsize : ∀ bytes ∈ contents, bytes.length < Scan.maxSize) : s.Writable := by
  refine h.writable (fun path handler hh => ?_) hsize
  rw [Handler.patternVersion_builtin hh]
  decide

theorem Kept.loadStore (h : Kept maxLines contents path d)
    (hsize : ∀ bytes ∈ contents, bytes.length < Scan.maxSize) (now : String) :
    ∃ s : Cache.Store, s.Faithful .builtin maxLines contents ∧
      (openStore now (some path)).run d = ((s, []), d) := by
  rcases h with hmissing | ⟨s, hs, hread⟩
  · exact ⟨.empty now, Cache.Store.faithful_empty now, loadStore_missing hmissing⟩
  · exact ⟨_, hs.retain _, loadStore_print (writable_of_faithful hs hsize) hread⟩

/-- One survey with a store keeps the invariant and gives what a survey without a store gives on a
disk with the same tree. -/
theorem Kept.run {config : Config} {other : Disk} (h : Kept config.maxLines contents path d)
    (hinj : Set.InjOn Cache.contentHash contents)
    (hsize : ∀ bytes ∈ contents, bytes.length < Scan.maxSize) (hreplace : d.CanReplace path)
    (htree : d.find config.root = other.find config.root)
      (hcontents : ∀ place entries, d.find config.root = .ok (place, .folder entries) →
      ∀ g ∈ (FileTree.listing config.root config.excludeNames entries).files,
        ∀ bytes, g.content = .ok bytes → bytes.toList ∈ contents)
    (now : String) (workspaces : Option WorkspaceTable) :
    Result.unmarked ((Survey.run (Disk.host now) config (some path) workspaces).run d).1 =
        ((Survey.run (Disk.host now) config none workspaces).run other).1 ∧
      Kept config.maxLines contents path
        ((Survey.run (Disk.host now) config (some path) workspaces).run d).2 := by
  obtain ⟨s, hs, hload⟩ := h.loadStore hsize now
  cases herror : rootEntries config.root ((d.find config.root).map Prod.snd) with
  | error e =>
    have hbare : (openStore now none).run other = ((.empty now, []), other) := rfl
    rw [run_of_rootError hload herror, run_of_rootError hbare (htree ▸ herror)]
    exact ⟨rfl, h⟩
  | ok entries =>
    obtain ⟨place, hfind⟩ := rootEntries_eq_ok_iff.1 herror
    have hsteady := Registry.isSteady_builtin
    have hcontents := hcontents place entries hfind
    have hreport := Scan.unmarked_run hsteady hs hcontents hinj now workspaces
    have hfaithful := Scan.faithful_run hsteady hs hcontents now workspaces
    obtain ⟨saved, hsave, hread⟩ := saveStore_replace hreplace now
      (Scan.run now .builtin config entries workspaces s).2
    rw [run_of_folder hload hfind hsave, run_none_of_folder (htree ▸ hfind)]
    refine ⟨?_, .inr ⟨_, hfaithful, hread⟩⟩
    rw [← hreport]
    rfl

/-! ### Histories -/

/-- One step of a history: the disk is edited and then surveyed. -/
structure Visit where
  edit : Disk → Disk
  now : String
  config : Config
  workspaces : Option WorkspaceTable

namespace Visit

/-- The result of a step, with or without a store, and the disk after it. -/
def survey (v : Visit) (cachePath : Option String) (d : Disk) : Result × Disk :=
  (Survey.run (Disk.host v.now) v.config cachePath v.workspaces).run (v.edit d)

/-- The edit of a step touches the tree only, and the store lies outside of the tree: `d` is the
disk of a history with a store in the file at `path`, `bare` that of the same history without one.
Every content that is surveyed is one of `contents`. -/
structure IsFair (v : Visit) (path : String) (contents : Set (List UInt8)) (d bare : Disk) :
    Prop where
  store : (v.edit d).read path = d.read path
  replace : (v.edit d).CanReplace path
  tree : (v.edit d).find v.config.root = (v.edit bare).find v.config.root
  contents : ∀ place entries, (v.edit d).find v.config.root = .ok (place, .folder entries) →
    ∀ g ∈ (FileTree.listing v.config.root v.config.excludeNames entries).files,
      ∀ bytes, g.content = .ok bytes → bytes.toList ∈ contents

end Visit

/-- The results of a history, in the order of its steps. -/
def results (cachePath : Option String) : Disk → List Visit → List Result
  | _, [] => []
  | d, v :: vs => (v.survey cachePath d).1 :: results cachePath (v.survey cachePath d).2 vs

/-- Every step of a history is fair. -/
def IsFair (path : String) (contents : Set (List UInt8)) : Disk → Disk → List Visit → Prop
  | _, _, [] => True
  | d, bare, v :: vs =>
    v.IsFair path contents d bare ∧ IsFair path contents (v.survey (some path) d).2
      (v.survey none bare).2 vs

theorem Kept.survey {v : Visit} {bare : Disk} (h : Kept v.config.maxLines contents path d)
    (hinj : Set.InjOn Cache.contentHash contents)
    (hsize : ∀ bytes ∈ contents, bytes.length < Scan.maxSize)
    (hfair : v.IsFair path contents d bare) :
    Result.unmarked (v.survey (some path) d).1 = (v.survey none bare).1 ∧
      Kept v.config.maxLines contents path (v.survey (some path) d).2 := by
  have hedit : Kept v.config.maxLines contents path (v.edit d) := by
    rw [Kept, hfair.store]
    exact h
  exact hedit.run hinj hsize hfair.replace hfair.tree hfair.contents v.now v.workspaces

theorem Kept.results {vs : List Visit} {bare : Disk} (h : Kept maxLines contents path d)
    (hinj : Set.InjOn Cache.contentHash contents)
    (hsize : ∀ bytes ∈ contents, bytes.length < Scan.maxSize)
    (hlines : ∀ v ∈ vs, v.config.maxLines = maxLines) (hfair : IsFair path contents d bare vs) :
    (Survey.results (some path) d vs).map Result.unmarked = Survey.results none bare vs := by
  induction vs generalizing d bare with
  | nil => rfl
  | cons v vs ih =>
    have hv := hlines v (by simp)
    obtain ⟨hresult, hkept⟩ := Kept.survey (hv ▸ h) hinj hsize hfair.1
    have hrest := ih (hv ▸ hkept) (fun w hw => hlines w (List.mem_cons_of_mem v hw)) hfair.2
    rw [Survey.results, Survey.results, List.map_cons, hresult, hrest]

/-- Steps that put a tree of known contents beside the store are fair, whatever was there before. -/
theorem isFair_beside {vs : List Visit} (hroot : ∀ v ∈ vs, v.config.root = "/src")
    (hedit : ∀ v ∈ vs, ∃ src, (∀ old store, v.edit (.beside old store) = .beside src store) ∧
      ∀ g ∈ (FileTree.listing v.config.root v.config.excludeNames src).files,
        ∀ bytes, g.content = .ok bytes → bytes.toList ∈ contents)
    (old : List (FileName × FileTree)) (store other : Option ByteArray) :
    IsFair "/store.json" contents (.beside old store) (.beside old other) vs := by
  induction vs generalizing old store other with
  | nil => trivial
  | cons v vs ih =>
    have hv := hroot v (by simp)
    obtain ⟨src, hsrc, hcontents⟩ := hedit v (by simp)
    have hfind : ∀ kept, (Disk.beside src kept).find v.config.root = .ok (["src"], .folder src) :=
      fun kept => hv ▸ Disk.find_beside src kept
    obtain ⟨bytes, hsaved⟩ := run_beside hv src store v.now v.workspaces
    refine ⟨⟨?_, ?_, ?_, ?_⟩, ?_⟩
    · rw [hsrc, Disk.read_beside, Disk.read_beside]
    · rw [hsrc]
      exact Disk.canReplace_beside src store
    · rw [hsrc, hsrc, hfind, hfind]
    · rw [hsrc, hfind]
      rintro place entries ⟨⟩
      exact hcontents
    · rw [Visit.survey, Visit.survey, hsrc, hsrc, hsaved, run_none_of_folder (hfind other)]
      exact ih (fun w hw => hroot w (List.mem_cons_of_mem v hw))
        (fun w hw => hedit w (List.mem_cons_of_mem v hw)) src _ _

/-- A history of edits and surveys with a store in a file that was missing at first gives, step by
step, the results of the same history without a store, but for the marks that tell cached
extractions from new ones. -/
theorem results_transparent {path : String} {contents : Set (List UInt8)} {maxLines : Nat}
    {d : Disk} {vs : List Visit} (hinj : Set.InjOn Cache.contentHash contents)
    (hsize : ∀ bytes ∈ contents, bytes.length < Scan.maxSize)
    (hlines : ∀ v ∈ vs, v.config.maxLines = maxLines) (hmissing : d.read path = .error .missing)
    (hfair : IsFair path contents d d vs) :
    (results (some path) d vs).map Result.unmarked = results none d vs :=
  Kept.results (.inl hmissing) hinj hsize hlines hfair

/-- A file is copied and changed between two surveys, the second of which leaves out large files. -/
theorem results_transparent_copied :
    let old : List (FileName × FileTree) := [("a.py", .ofBytes "f()".toUTF8)]
    let new : List (FileName × FileTree) :=
      [("a.py", .ofBytes "g()".toUTF8), ("b.py", .ofBytes "f()".toUTF8)]
    let contents : Set (List UInt8) := {[102, 40, 41], [103, 40, 41]}
    let config : Config := { Config.default with root := "/src" }
    let vs : List Visit := [⟨Disk.putTree old, "now", config, none⟩,
      ⟨Disk.putTree new, "later", { config with maxFileSize := 9 }, none⟩]
    Set.InjOn Cache.contentHash contents ∧
      IsFair "/store.json" contents (.beside [] none) (.beside [] none) vs ∧
      (results (some "/store.json") (.beside [] none) vs).map Result.unmarked =
        results none (.beside [] none) vs := by
  intro old new contents config vs
  have hhash : Cache.contentHash [102, 40, 41] ≠
      Cache.contentHash [103, 40, 41] := by decide +kernel
  have hinj : Set.InjOn Cache.contentHash contents := by
    rintro _ (rfl | rfl) _ (rfl | rfl) h
    · rfl
    · exact absurd h hhash
    · exact absurd h.symm hhash
    · rfl
  have hbytes : "f()".toUTF8.toList ∈ contents ∧ "g()".toUTF8.toList ∈ contents := by
    rw [Text.Utf8.byteArray_toList, Text.Utf8.byteArray_toList]
    exact ⟨.inl rfl, .inr rfl⟩
  have hold : ∀ g ∈ (FileTree.listing "/src" config.excludeNames old).files,
      ∀ bytes, g.content = .ok bytes → bytes.toList ∈ contents := by
    have hfiles : (FileTree.walkIn config.excludeNames old).filterMap FileTree.Visit.found? =
        [⟨"a.py", 3, .ok "f()".toUTF8⟩] := rfl
    simp only [FileTree.listing, List.mem_mergeSort, hfiles, List.forall_mem_cons]
    refine ⟨?_, nofun⟩
    rintro _ ⟨⟩
    exact hbytes.1
  have hnew : ∀ g ∈ (FileTree.listing "/src" config.excludeNames new).files,
      ∀ bytes, g.content = .ok bytes → bytes.toList ∈ contents := by
    have hfiles : (FileTree.walkIn config.excludeNames new).filterMap FileTree.Visit.found? =
        [⟨"a.py", 3, .ok "g()".toUTF8⟩, ⟨"b.py", 3, .ok "f()".toUTF8⟩] := rfl
    simp only [FileTree.listing, List.mem_mergeSort, hfiles, List.forall_mem_cons]
    refine ⟨?_, ?_, nofun⟩
    · rintro _ ⟨⟩
      exact hbytes.2
    · rintro _ ⟨⟩
      exact hbytes.1
  have hfair : IsFair "/store.json" contents (.beside [] none) (.beside [] none) vs := by
    refine isFair_beside ?_ ?_ [] none none
    · simp [vs, config]
    · simp only [vs, List.forall_mem_cons]
      exact ⟨⟨old, fun before store => Disk.putTree_beside old store before, hold⟩,
        ⟨new, fun before store => Disk.putTree_beside new store before, hnew⟩, nofun⟩
  have hlines : ∀ v ∈ vs, v.config.maxLines = 0 := by simp [vs, config, Config.default]
  refine ⟨hinj, hfair, results_transparent hinj ?_ hlines (Disk.read_beside [] none) hfair⟩
  rintro _ (rfl | rfl) <;> decide

end Survey

end CodeSurvey
