import CodeSurvey.Proofs.Scan.Serve
import CodeSurvey.Proofs.Survey.History

/-!
# Surveys repeated on one tree

Two surveys of one tree with the store in one file, which was missing at first. The second one takes
what it can from the store of the first one, also where their line limits differ.
-/
namespace CodeSurvey

theorem Report.cacheHits_add_cacheMisses (r : Report) :
    r.cacheHits + r.cacheMisses = r.files.length := by
  rw [cacheHits, cacheMisses]
  exact (List.length_eq_length_filter_add ExtractedFile.fromCache).symm

namespace Survey

/-- A survey finds no store in the file at `path`, leaves its own one there and the tree as it
was. -/
structure IsFirst (now : String) (config : Config) (workspaces : Option WorkspaceTable)
    (path : String) (d : Disk) (entries : List (FileName × FileTree)) : Prop where
  missing : d.read path = .error .missing
  replace : d.CanReplace path
  tree : ∃ place, d.find config.root = .ok (place, .folder entries)
  outside : ∃ place, ((run (Disk.host now) config (some path) workspaces).run d).2.find
    config.root =
    .ok (place, .folder entries)
  size : ∀ g ∈ (FileTree.listing config.root config.excludeNames entries).files,
    ∀ bytes, g.content = .ok bytes → bytes.size < Scan.maxSize

variable {d : Disk} {path now : String} {config : Config} {workspaces : Option WorkspaceTable}
  {entries : List (FileName × FileTree)}

/-- The store that a first survey leaves can be written and read back. -/
theorem writable_firstStore (now : String)
    (hsize : ∀ g ∈ (FileTree.listing config.root config.excludeNames entries).files,
      ∀ bytes, g.content = .ok bytes → bytes.size < Scan.maxSize)
    (workspaces : Option WorkspaceTable) (live : String → Bool) :
    (Scan.run now .builtin config entries workspaces (.empty now)).2.Writable ∧
      ((Scan.run now .builtin config entries workspaces (.empty now)).2.retain live).IsModern := by
  let contents : Set (List UInt8) :=
    {content | ∃ g ∈ (FileTree.listing config.root config.excludeNames entries).files,
      ∃ bytes, g.content = .ok bytes ∧ bytes.toList = content}
  have hempty : (Cache.Store.empty now).Faithful .builtin config.maxLines contents :=
    Cache.Store.faithful_empty now
  have hfaithful := Scan.faithful_run Registry.isSteady_builtin hempty
    (fun g hg bytes hbytes => ⟨g, hg, bytes, hbytes, rfl⟩) now workspaces
  refine ⟨writable_of_faithful hfaithful ?_, (hfaithful.retain live).isModern⟩
  rintro _ ⟨g, hg, bytes, hbytes, rfl⟩
  rw [Text.Utf8.byteArray_toList]
  exact hsize g hg bytes hbytes

/-- What two surveys of one tree give, and what the second one would give without a store. -/
theorem results_twice (h : IsFirst now config workspaces path d entries) (later : String)
    (other : Config) (hroot : other.root = config.root) (others : Option WorkspaceTable) :
    ∃ first second bare : Report,
      results (some path) d [⟨id, now, config, workspaces⟩, ⟨id, later, other, others⟩] =
        [.ok (first, stamp now config workspaces), .ok (second, stamp later other others)] ∧
      results none d [⟨id, later, other, others⟩] = [.ok (bare, stamp later other others)] ∧
      first.files = Scan.freshFiles config .builtin
        (FileTree.listing config.root config.excludeNames entries).files ∧
      bare.files = Scan.freshFiles other .builtin
        (FileTree.listing other.root other.excludeNames entries).files ∧
      second.files = bare.files.map (Scan.serve first.files) := by
  obtain ⟨place, hfind⟩ := h.tree
  obtain ⟨hwritable, hmodern⟩ := writable_firstStore now h.size workspaces fun p =>
    !Cache.Store.isHidden p
  obtain ⟨saved, hsave, hread⟩ := saveStore_replace h.replace now
    (Scan.run now .builtin config entries workspaces (.empty now)).2
  have hfirst := run_of_folder (loadStore_missing h.missing) hfind hsave
  obtain ⟨moved, houtside⟩ := h.outside
  rw [hfirst, ← hroot] at houtside
  have hsteady := Registry.isSteady_builtin
  obtain ⟨hfiles, hstore⟩ := Scan.run_empty config hsteady now entries workspaces
  obtain ⟨hfresh, -⟩ := Scan.run_empty other hsteady later entries others
  have hbare : (run (Disk.host later) other none others).run d = _ :=
    run_none_of_folder (hroot ▸ hfind)
  have hload : (loadStore (Disk.host later) later path).run saved = _ :=
    loadStore_print hwritable hread
  obtain ⟨second, hsecond, hserved⟩ : ∃ second : Report,
      ((run (Disk.host later) other (some path) others).run saved).1 =
        .ok (second, stamp later other others) ∧
        second.files = _ :=
    ⟨withWarnings _ _, congrArg Prod.fst (run_of_folder hload houtside rfl),
      Scan.files_run other hsteady later entries others hmodern⟩
  refine ⟨_, second, _, ?_, ?_, hfiles, hfresh, ?_⟩
  · simp only [results, Visit.survey, id_eq, hfirst, hsecond]
    rfl
  · simp only [results, Visit.survey, id_eq, hbare]
  · rw [hserved, hstore, hfiles, hfresh]
    exact List.map_congr_left fun f hf => Scan.recalled_firstStore now hf

/-- Every tree can be put beside a store, where a survey of it is a first one. -/
theorem isFirst_beside (hroot : config.root = "/src")
    (hsize : ∀ g ∈ (FileTree.listing config.root config.excludeNames entries).files,
      ∀ bytes, g.content = .ok bytes → bytes.size < Scan.maxSize) (now : String)
    (workspaces : Option WorkspaceTable) :
    IsFirst now config workspaces "/store.json" (.beside entries none) entries := by
  obtain ⟨bytes, hsaved⟩ := run_beside hroot entries none now workspaces
  refine ⟨Disk.read_beside entries none, Disk.canReplace_beside entries none, ?_, ?_, hsize⟩
  · exact ⟨_, hroot ▸ Disk.find_beside entries none⟩
  · rw [hsaved]
    exact ⟨_, hroot ▸ Disk.find_beside entries (some bytes)⟩

/-- A second survey with the line limit `n` gives what the first one found within its own limit. Its
limit is honoured if and only if the limits make no difference to any file that is served from the
store. -/
theorem line_limit_honoured_iff (h : IsFirst now config workspaces path d entries) (later : String)
    (n : Nat) (others : Option WorkspaceTable) :
    let other := { config with maxLines := n }
    let found := (FileTree.listing config.root config.excludeNames entries).files
    ∃ first second bare : Report,
      results (some path) d [⟨id, now, config, workspaces⟩, ⟨id, later, other, others⟩] =
        [.ok (first, stamp now config workspaces), .ok (second, stamp later other others)] ∧
      results none d [⟨id, later, other, others⟩] = [.ok (bare, stamp later other others)] ∧
      first.files = Scan.freshFiles config .builtin found ∧
      bare.files = Scan.freshFiles other .builtin found ∧
      second.files = bare.files.map (Scan.serve first.files) ∧
      (Scan.HonoursLimit second.files bare.files ↔
        ∀ f ∈ bare.files, ∀ x, Scan.served first.files f = some x → x = f.extraction) ∧
      ((found.map FoundFile.path).Nodup →
        (Scan.HonoursLimit second.files bare.files ↔
          ∀ g ∈ found, ∀ handler bytes, Scan.Reads config .builtin g handler bytes →
            Cache.Store.isHidden g.path = false →
            (Scan.fresh config.maxLines handler g.path bytes).extraction =
              (Scan.fresh n handler g.path bytes).extraction)) := by
  intro other found
  obtain ⟨first, second, bare, hresults, hbare, hfirst, hfresh, hsecond⟩ :=
    results_twice h later other rfl others
  have hhonours : Scan.HonoursLimit second.files bare.files ↔
      ∀ f ∈ bare.files, ∀ x, Scan.served first.files f = some x → x = f.extraction := by
    rw [hsecond, hfresh, hfirst]
    exact Scan.honoursLimit_serve_iff
  refine ⟨first, second, bare, hresults, hbare, hfirst, hfresh, hsecond, hhonours, fun hnodup => ?_⟩
  rw [hhonours, hfresh, hfirst]
  exact Scan.forall_served_iff hnodup n

/-- A second survey with a limit of two lines gives what the first one found in all four lines of a
file. -/
theorem line_limit_ignored :
    let entries : List (FileName × FileTree) :=
      [("a.py", .ofBytes "def a():\n    pass\ndef b():\n    pass\n".toUTF8)]
    let config : Config := { Config.default with root := "/src" }
    let other : Config := { config with maxLines := 2 }
    IsFirst "now" config none "/store.json" (.beside entries none) entries ∧
      ∃ first second bare : Report,
        results (some "/store.json") (.beside entries none)
            [⟨id, "now", config, none⟩, ⟨id, "later", other, none⟩] =
          [.ok (first, stamp "now" config none), .ok (second, stamp "later" other none)] ∧
        results none (.beside entries none) [⟨id, "later", other, none⟩] =
          [.ok (bare, stamp "later" other none)] ∧
        ¬Scan.HonoursLimit second.files bare.files := by
  intro entries config other
  have hlisting : (FileTree.listing config.root config.excludeNames entries).files =
      [⟨"a.py", 36, .ok "def a():\n    pass\ndef b():\n    pass\n".toUTF8⟩] :=
    List.mergeSort_singleton _
  have hfirst : IsFirst "now" config none "/store.json" (.beside entries none) entries := by
    refine isFirst_beside rfl ?_ "now" none
    rw [hlisting]
    simp only [List.forall_mem_cons]
    refine ⟨?_, nofun⟩
    rintro _ ⟨⟩
    decide
  obtain ⟨first, second, bare, hresults, hbare, -, -, -, -, hiff⟩ :=
    line_limit_honoured_iff hfirst "later" 2 none
  refine ⟨hfirst, first, second, bare, hresults, hbare, fun hhonours => ?_⟩
  rw [hlisting] at hiff
  have hsame := (hiff (List.nodup_singleton _)).1 hhonours _ (List.mem_singleton_self _) _ _
    ⟨rfl, rfl, rfl⟩ rfl
  have hcut := congrArg (·.fileMeta.wasTruncated) hsame
  simp only [Scan.fresh, Scan.wasTruncated_extract, Scan.source, Text.Utf8.byteArray_toList] at hcut
  exact absurd hcut (by decide)

/-- A second survey of an unchanged tree without two files of one path gives the same files, and
takes all of them from the store but for those whose path has an underscore in front. -/
theorem repeated_survey_served (h : IsFirst now config workspaces path d entries)
    (hnodup : ((FileTree.listing config.root config.excludeNames entries).files.map
      FoundFile.path).Nodup) (later : String) (others : Option WorkspaceTable) :
    ∃ first second : Report,
      results (some path) d [⟨id, now, config, workspaces⟩, ⟨id, later, config, others⟩] =
        [.ok (first, stamp now config workspaces), .ok (second, stamp later config others)] ∧
      first.files = Scan.freshFiles config .builtin
        (FileTree.listing config.root config.excludeNames entries).files ∧
      second.files.map ExtractedFile.unmarked = first.files ∧
      second.cacheMisses = first.files.countP (Cache.Store.isHidden ·.path) ∧
      second.cacheHits + second.cacheMisses = first.files.length ∧
      ((second.cacheMisses = 0 ∧ second.cacheHits = first.files.length) ↔
        ∀ f ∈ first.files, Cache.Store.isHidden f.path = false) := by
  obtain ⟨first, second, bare, hresults, -, hfirst, hfresh, hsecond⟩ :=
    results_twice h later config rfl others
  rw [hfresh, ← hfirst] at hsecond
  have hserve : ∀ f ∈ first.files, (Scan.serve first.files f).unmarked = f ∧
      (Scan.serve first.files f).fromCache = !Cache.Store.isHidden f.path := by
    rw [hfirst]
    exact fun f hf => Scan.unmarked_serve hnodup hf
  have hmisses : second.cacheMisses = first.files.countP (Cache.Store.isHidden ·.path) := by
    rw [Report.cacheMisses, hsecond, ← List.countP_eq_length_filter, List.countP_map]
    refine List.countP_congr fun f hf => ?_
    rw [Function.comp_apply, (hserve f hf).2, Bool.not_not]
  have htotal : second.cacheHits + second.cacheMisses = first.files.length := by
    rw [Report.cacheHits_add_cacheMisses, hsecond, List.length_map]
  refine ⟨first, second, hresults, hfirst, ?_, hmisses, htotal, ?_⟩
  · rw [hsecond, List.map_map]
    exact (List.map_congr_left fun f hf => (hserve f hf).1).trans (List.map_id' _)
  · have hzero : second.cacheMisses = 0 ↔
        ∀ f ∈ first.files, Cache.Store.isHidden f.path = false := by
      rw [hmisses, List.countP_eq_zero]
      simp only [Bool.not_eq_true]
    rw [← hzero]
    omega

/-- A file with an underscore in front is extracted anew. -/
theorem repeated_survey_misses :
    let entries : List (FileName × FileTree) :=
      [("__init__.py", .ofBytes "f()".toUTF8), ("b.py", .ofBytes "g()".toUTF8)]
    let config : Config := { Config.default with root := "/src" }
    IsFirst "now" config none "/store.json" (.beside entries none) entries ∧
      ((FileTree.listing config.root config.excludeNames entries).files.map FoundFile.path).Nodup ∧
      ∃ first second : Report,
        results (some "/store.json") (.beside entries none)
            [⟨id, "now", config, none⟩, ⟨id, "later", config, none⟩] =
          [.ok (first, stamp "now" config none), .ok (second, stamp "later" config none)] ∧
        first.files.length = 2 ∧ second.cacheHits = 1 ∧ second.cacheMisses = 1 := by
  intro entries config
  have hlisting : (FileTree.listing config.root config.excludeNames entries).files =
      [⟨"__init__.py", 3, .ok "f()".toUTF8⟩, ⟨"b.py", 3, .ok "g()".toUTF8⟩] :=
    List.mergeSort_of_pairwise (by decide)
  have hfirst : IsFirst "now" config none "/store.json" (.beside entries none) entries := by
    refine isFirst_beside rfl ?_ "now" none
    rw [hlisting]
    simp only [List.forall_mem_cons]
    refine ⟨?_, ?_, nofun⟩
    · rintro _ ⟨⟩
      decide
    · rintro _ ⟨⟩
      decide
  have hnodup : ((FileTree.listing config.root config.excludeNames entries).files.map
      FoundFile.path).Nodup := by
    rw [hlisting]
    decide
  obtain ⟨first, second, hresults, hfiles, -, hmisses, htotal, -⟩ :=
    repeated_survey_served hfirst hnodup "later" none
  have hpaths : first.files.map ExtractedFile.path = ["__init__.py", "b.py"] := by
    rw [hfiles, hlisting]
    rfl
  have hlength : first.files.length = 2 := by
    rw [← List.length_map ExtractedFile.path, hpaths]
    rfl
  have hhidden : first.files.countP (Cache.Store.isHidden ·.path) = 1 := by
    have hmap : first.files.countP (Cache.Store.isHidden ·.path) =
        (first.files.map ExtractedFile.path).countP Cache.Store.isHidden := by
      rw [List.countP_map]
      rfl
    rw [hmap, hpaths]
    decide
  exact ⟨hfirst, hnodup, first, second, hresults, hlength, by omega, by omega⟩

end Survey

end CodeSurvey
