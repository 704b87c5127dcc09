import CodeSurvey.Proofs.Scan.Serve
import CodeSurvey.Proofs.Survey.Run

/-!
# Stores after a scan

Whatever a store held before, a scan leaves it with an entry of the present kind for every file that
was extracted, with the entries of the other listed files as they were, and with nothing else.
-/
namespace CodeSurvey

/-! ### Entries of the present kind -/

namespace Cache

/-- The entry is of the present kind and keeps `x` for a file that looks like `f`. -/
structure Entry.Records (e : Entry) (f : Fingerprint) (x : Extraction) : Prop where
  kind : e.hashKind = .blake3
  hash : e.contentHash = f.hash
  version : e.patternVersion = some f.patternVersion
  extraction : e.extraction = x

theorem Entry.records_of_isCurrent {e : Entry} {f : Fingerprint} (h : e.isCurrent f = true)
    (hlegacy : e.isLegacy = false) : e.Records f e.extraction := by
  obtain ⟨hkind, hsome⟩ : e.hashKind = .blake3 ∧ e.patternVersion.isSome = true := by
    simpa [isLegacy] using hlegacy
  obtain ⟨v, hv⟩ := Option.isSome_iff_exists.1 hsome
  rw [isCurrent, hashMatches, hkind, hv, Bool.and_eq_true] at h
  refine ⟨hkind, by simpa using h.2, ?_, rfl⟩
  rw [hv]
  simpa using h.1

theorem Entry.Records.isLegacy {e : Entry} {f : Fingerprint} {x : Extraction} (h : e.Records f x) :
    e.isLegacy = false := by
  simp [Entry.isLegacy, h.kind, h.version]

theorem Entry.Records.isCurrent {e : Entry} {f : Fingerprint} {x : Extraction} (h : e.Records f x) :
    e.isCurrent f = true := by
  simp [Entry.isCurrent, hashMatches, h.kind, h.version, h.hash]

namespace Store

theorem records_of_lookup? {s : Store} {path : String} {f : Fingerprint} {x : Extraction}
    (h : s.lookup? path f = some x) (hlegacy : s.isLegacy path = false) :
    ∃ e, s.get? path = some e ∧ e.Records f x := by
  obtain ⟨e, he, rfl⟩ := Option.map_eq_some_iff.1 h
  obtain ⟨hget, hcurrent⟩ := Option.filter_eq_some_iff.1 he
  rw [isLegacy, hget] at hlegacy
  exact ⟨e, hget, Entry.records_of_isCurrent hcurrent hlegacy⟩

/-- A file with an entry of the present kind is found again at once. -/
theorem lookup?_of_records {s : Store} {path : String} {f : Fingerprint} {x : Extraction}
    {e : Entry} (he : s.get? path = some e) (h : e.Records f x) :
    s.isLegacy path = false ∧ s.lookup? path f = some x := by
  rw [isLegacy, lookup?, he, Option.filter_some, if_pos h.isCurrent]
  exact ⟨h.isLegacy, congrArg some h.extraction⟩

theorem get?_updateStore_lastOf (now : String) (live : String → Bool) (files : List ExtractedFile)
    (s : Store) (path : String) :
    (Scan.updateStore now live files s).get? path =
      if live path then ((Scan.lastOf (s.refreshed files) path).map (entryOf now)).or
        (s.get? path) else none := by
  rw [get?_updateStore_eq, Scan.lookup_reverse_map]

/-- A file that is not refreshed was found in an entry of the present kind. -/
theorem records_updateStore (now : String) {live : String → Bool} {files : List ExtractedFile}
    {s : Store} (hnodup : (files.map ExtractedFile.path).Nodup) {f : ExtractedFile} (hf : f ∈ files)
    (hlive : live f.path = true) {p : Fingerprint} (hhash : p.hash = f.source.contentHash)
    (hversion : p.patternVersion = f.patternVersion)
    (hcached : f.fromCache = true → s.lookup? f.path p = some f.extraction) :
    ∃ e, (Scan.updateStore now live files s).get? f.path = some e ∧ e.Records p f.extraction := by
  have hsublist : ((s.refreshed files).map ExtractedFile.path).Sublist
    (files.map ExtractedFile.path) :=
    List.filter_sublist.map _
  rw [get?_updateStore_lastOf, if_pos hlive]
  by_cases hnew : f ∈ s.refreshed files
  · rw [Scan.lastOf_of_nodup (hsublist.nodup hnodup) hnew]
    exact ⟨_, rfl, rfl, hhash.symm, congrArg some hversion.symm, rfl⟩
  · have hnone : Scan.lastOf (s.refreshed files) f.path = none := by
      refine Scan.lastOf_eq_none fun hpath => ?_
      obtain ⟨g, hg, hpath⟩ := List.mem_map.1 hpath
      rw [List.inj_on_of_nodup_map hnodup (List.mem_filter.1 hg).1 hf hpath] at hg
      exact hnew hg
    obtain ⟨hhit, hlegacy⟩ : f.fromCache = true ∧ s.isLegacy f.path = false := by
      simpa [refreshed, hf] using hnew
    rw [hnone, Option.map_none, Option.none_or]
    exact records_of_lookup? (hcached hhit) hlegacy

end Store

end Cache

/-! ### The store after a scan -/

namespace Scan

variable {config : Config} {registry : Registry} {store : Cache.Store} {found : List FoundFile}

/-- A file with what the store has for it, or else extracted anew. -/
def answered (store : Cache.Store) (maxLines : Nat) (handler : Handler) (path : String)
    (bytes : ByteArray) : ExtractedFile :=
  let hit := store.lookup? path (fingerprint handler bytes)
  let f := fresh maxLines handler path bytes
  { f with extraction := hit.getD f.extraction, fromCache := hit.isSome }

/-- Something is made of the bytes that a handler reads: the store has them, or their reading does
not break down. -/
def Answers (store : Cache.Store) (registry : Registry) (maxLines : Nat) (handler : Handler)
    (path : String) (bytes : ByteArray) : Prop :=
  (store.lookup? path (fingerprint handler bytes)).isSome = true ∨
    registry.breaksOn path (source maxLines handler path bytes).content = false

theorem file?_outcome_eq_some_iff {handler : Handler} {path : String} {bytes : ByteArray}
    {f : ExtractedFile} : (outcome config registry handler path bytes
        (store.lookup? path (fingerprint handler bytes))).file? = some f ↔
      Answers store registry config.maxLines handler path bytes ∧
        answered store config.maxLines handler path bytes = f := by
  rw [outcome, Answers, answered]
  cases store.lookup? path (fingerprint handler bytes) with
  | some x => simp [FileOutcome.file?]
  | none =>
    cases hbreaks : registry.breaksOn path (source config.maxLines handler path bytes).content <;>
      simp [FileOutcome.file?, fresh, hbreaks]

theorem file?_outcomeOf_eq_some_iff {g : FoundFile} {ofBytes : Handler → ByteArray → FileOutcome}
    {f : ExtractedFile} : (outcomeOf config registry g ofBytes).file? = some f ↔
      ∃ handler bytes, Reads config registry g handler bytes ∧
        (ofBytes handler bytes).file? = some f := by
  rw [outcomeOf]
  constructor
  · intro hf
    cases hhandler : Handler.ofPath? registry g.path with
    | none =>
      rw [hhandler] at hf
      cases hf
    | some handler =>
      cases hsize : isOversized config g with
      | true =>
        rw [hhandler, hsize] at hf
        cases hf
      | false =>
        cases hcontent : g.content with
        | error fault =>
          rw [hhandler, hsize, hcontent] at hf
          cases hf
        | ok bytes =>
          rw [hhandler, hsize, hcontent] at hf
          exact ⟨handler, bytes, ⟨hhandler, hsize, hcontent⟩, hf⟩
  · rintro ⟨handler, bytes, ⟨hhandler, hsize, hcontent⟩, hf⟩
    rw [hhandler, hsize, hcontent]
    exact hf

theorem mem_files_extractFiles {f : ExtractedFile} :
    f ∈ (extractFiles config registry store found).files ↔
      ∃ g ∈ found, ∃ handler bytes, Reads config registry g handler bytes ∧
        Answers store registry config.maxLines handler g.path bytes ∧
        answered store config.maxLines handler g.path bytes = f := by
  simp only [files_eq_filterMap, List.mem_filterMap, processFile_eq_lookup,
    file?_outcomeOf_eq_some_iff, file?_outcome_eq_some_iff]

theorem paths_extractFiles_sublist :
    ((extractFiles config registry store found).files.map ExtractedFile.path).Sublist
      (found.map FoundFile.path) := by
  rw [files_eq_filterMap]
  refine paths_filterMap_sublist (fun g f hf => ?_) found
  rw [processFile_eq_lookup, file?_outcomeOf_eq_some_iff] at hf
  obtain ⟨handler, bytes, -, hf⟩ := hf
  obtain ⟨-, rfl⟩ := file?_outcome_eq_some_iff.1 hf
  rfl

/-- How a scan that extracts `files` out of the listing `found` changes a store. -/
structure Refreshes (config : Config) (registry : Registry) (found : List FoundFile)
    (files : List ExtractedFile) (before after : Cache.Store) : Prop where
  /-- A file is extracted unless nothing reads it or it is skipped: it is too large, its bytes
  cannot be had, or their reading breaks down. -/
  extracted_iff : ∀ g ∈ found, g.path ∈ files.map ExtractedFile.path ↔
    ∃ handler bytes, Reads config registry g handler bytes ∧
      Answers before registry config.maxLines handler g.path bytes
  /-- The entry of an extracted file is up to date and would be found by another scan. -/
  extracted : ∀ f ∈ files, ∃ g ∈ found, ∃ handler bytes, g.path = f.path ∧
    Reads config registry g handler bytes ∧
    (∃ e, after.get? f.path = some e ∧ e.Records (fingerprint handler bytes) f.extraction) ∧
    after.isLegacy f.path = false ∧
    after.lookup? f.path (fingerprint handler bytes) = some f.extraction
  passed_over : ∀ g ∈ found, g.path ∉ files.map ExtractedFile.path →
    after.get? g.path = before.get? g.path
  gone : ∀ path, path ∉ found.map FoundFile.path → after.get? path = none

theorem refreshes_run (now : String) (registry : Registry) (config : Config)
    (entries : List (FileName × FileTree)) (workspaces : Option WorkspaceTable)
    (store : Cache.Store)
    (hnodup : ((FileTree.listing config.root config.excludeNames entries).files.map
      FoundFile.path).Nodup) :
    Refreshes config registry (FileTree.listing config.root config.excludeNames entries).files
      (run now registry config entries workspaces store).1.files store
      (run now registry config entries workspaces store).2 := by
  rw [run_eq]
  generalize FileTree.listing config.root config.excludeNames entries = listing at hnodup ⊢
  have hlive : ∀ path, (livePaths listing).contains path = true ↔
      path ∈ listing.files.map FoundFile.path := by simp [livePaths]
  refine ⟨fun g hg => ⟨fun hpath => ?_, ?_⟩, fun f hf => ?_, fun g hg hpath => ?_,
    fun path hpath => ?_⟩
  · obtain ⟨f, hf, hfg⟩ := List.mem_map.1 hpath
    obtain ⟨g', hg', handler, bytes, hreads, hanswers, rfl⟩ := mem_files_extractFiles.1 hf
    obtain rfl : g' = g := List.inj_on_of_nodup_map hnodup hg' hg hfg
    exact ⟨handler, bytes, hreads, hanswers⟩
  · rintro ⟨handler, bytes, hreads, hanswers⟩
    exact List.mem_map.2
      ⟨_, mem_files_extractFiles.2 ⟨g, hg, handler, bytes, hreads, hanswers, rfl⟩, rfl⟩
  · obtain ⟨g, hg, handler, bytes, hreads, -, rfl⟩ := mem_files_extractFiles.1 hf
    have hcached : (answered store config.maxLines handler g.path bytes).fromCache = true →
        store.lookup? g.path (fingerprint handler bytes) =
          some (answered store config.maxLines handler g.path bytes).extraction := by
      intro hhit
      obtain ⟨x, hx⟩ := Option.isSome_iff_exists.1 hhit
      simp [answered, hx]
    obtain ⟨e, he, hrecords⟩ := Cache.Store.records_updateStore now
      (paths_extractFiles_sublist.nodup hnodup) hf ((hlive g.path).2 (List.mem_map_of_mem hg))
      (p := fingerprint handler bytes) rfl rfl hcached
    exact ⟨g, hg, handler, bytes, rfl, hreads, ⟨e, he, hrecords⟩,
      Cache.Store.lookup?_of_records he hrecords⟩
  · have hnone : lastOf (store.refreshed (extractFiles config registry store listing.files).files)
        g.path = none :=
      lastOf_eq_none fun hnew => hpath ((List.filter_sublist.map _).subset hnew)
    rw [Cache.Store.get?_updateStore_lastOf, if_pos ((hlive g.path).2 (List.mem_map_of_mem hg)),
      hnone]
    rfl
  · rw [Cache.Store.get?_updateStore_lastOf,
      if_neg fun hcontains => hpath ((hlive path).1 hcontains)]

end Scan

namespace Survey

/-- A scan of a root, with whatever store it starts, refreshes the store. Where there is no folder
to list, or no worker starts, it gives an error, and the store is what it was. -/
theorem scanRoot_refreshes (d : Disk) (now : String) (started : Except String Unit)
    (registry : Registry) (config : Config) (workspaces : Option WorkspaceTable)
    (store : Cache.Store)
    (hnodup : ∀ place entries, d.find config.root = .ok (place, .folder entries) →
      ((FileTree.listing config.root config.excludeNames entries).files.map
        FoundFile.path).Nodup) :
    ∃ result after,
      (scanRoot (hostWith now started) now registry config workspaces store).run d =
        ((result, after), d) ∧
      (∀ report timings, result = .ok (report, timings) →
        ∃ place entries, d.find config.root = .ok (place, .folder entries) ∧
          Scan.Refreshes config registry
            (FileTree.listing config.root config.excludeNames entries).files report.files
            store after) ∧
      ∀ e, result = .error e → after = store ∧
        (rootEntries config.root ((d.find config.root).map Prod.snd) = .error e ∨
          ∃ reason, started = .error reason ∧ e = .noWorkers reason) := by
  cases hroot : rootEntries config.root ((d.find config.root).map Prod.snd) with
  | error e =>
    refine ⟨_, _, scanRoot_of_rootError hroot, nofun, ?_⟩
    rintro _ ⟨⟩
    exact ⟨rfl, .inl rfl⟩
  | ok entries =>
    obtain ⟨place, hfind⟩ := rootEntries_eq_ok_iff.1 hroot
    cases started with
    | error reason =>
      refine ⟨_, _, scanRoot_of_noWorkers hfind, nofun, ?_⟩
      rintro _ ⟨⟩
      exact ⟨rfl, .inr ⟨reason, rfl, rfl⟩⟩
    | ok =>
      refine ⟨_, _, scanRoot_of_folder hfind, ?_, nofun⟩
      rintro _ _ ⟨⟩
      exact ⟨place, entries, hfind, Scan.refreshes_run now registry config entries workspaces store
        (hnodup _ _ hfind)⟩

/-- A store of an older kind is refreshed for a file that is there, left alone for a file that
nothing reads and for one that cannot be read, and freed of a file that is gone. -/
theorem scanRoot_refreshes_legacy :
    let entries : List (FileName × FileTree) := [("a.py", .ofBytes "f()".toUTF8),
      ("b.txt", .ofBytes .empty), ("d.py", .file ⟨.ok 3, .error (.other "denied")⟩)]
    let config : Config := { Config.default with root := "/src" }
    let old : Cache.Entry :=
      ⟨Cache.legacyContentHash "f()".toList, .legacySha256, none, "", .empty⟩
    let store : Cache.Store :=
      ⟨"then", [("a.py", old), ("b.txt", old), ("c.py", old), ("d.py", old)]⟩
    ((FileTree.listing config.root config.excludeNames entries).files.map FoundFile.path).Nodup ∧
      store.isLegacy "a.py" = true ∧
      ∃ report timings after,
        (scanRoot (hostWith "now" (.ok ())) "now" .builtin config none store).run
            (.beside entries none) =
          ((.ok (report, timings), after), .beside entries none) ∧
        after.isLegacy "a.py" = false ∧ after.get? "b.txt" = some old ∧
        after.get? "c.py" = none ∧ after.get? "d.py" = some old := by
  intro entries config old store
  have hlisting : (FileTree.listing config.root config.excludeNames entries).files =
      [⟨"a.py", 3, .ok "f()".toUTF8⟩, ⟨"b.txt", 0, .ok .empty⟩,
        ⟨"d.py", 3, .error (.other "denied")⟩] :=
    List.mergeSort_of_pairwise (by decide)
  have hfind : (Disk.beside entries none).find config.root = .ok (["src"], .folder entries) :=
    Disk.find_beside entries none
  have hnodup : ((FileTree.listing config.root config.excludeNames entries).files.map
      FoundFile.path).Nodup := by
    rw [hlisting]
    decide
  obtain ⟨result, after, hrun, hok, herror⟩ := scanRoot_refreshes (.beside entries none) "now"
    (.ok ()) .builtin config none store (by rw [hfind]; rintro _ _ ⟨⟩; exact hnodup)
  cases result with
  | error e =>
    rcases (herror e rfl).2 with hroot | ⟨reason, hstarted, -⟩
    · rw [hfind] at hroot
      cases hroot
    · cases hstarted
  | ok result =>
    obtain ⟨report, timings⟩ := result
    obtain ⟨place, tree, hfound, hrefreshes⟩ := hok report timings rfl
    obtain rfl : tree = entries := by
      rw [hfind] at hfound
      cases hfound
      rfl
    rw [hlisting] at hrefreshes
    refine ⟨hnodup, rfl, report, timings, after, hrun, ?_, ?_, ?_, ?_⟩
    · have hextracted := (hrefreshes.extracted_iff _ List.mem_cons_self).2
        ⟨_, _, ⟨rfl, rfl, rfl⟩, .inr rfl⟩
      obtain ⟨f, hf, hpath⟩ := List.mem_map.1 hextracted
      obtain ⟨-, -, -, -, -, -, -, hlegacy, -⟩ := hrefreshes.extracted f hf
      rwa [hpath] at hlegacy
    · refine hrefreshes.passed_over ⟨"b.txt", 0, .ok .empty⟩ (by simp) fun hpath => ?_
      obtain ⟨handler, bytes, hreads, -⟩ :=
        (hrefreshes.extracted_iff ⟨"b.txt", 0, .ok .empty⟩ (by simp)).1 hpath
      have hnone : Handler.ofPath? .builtin "b.txt" = none := by decide +kernel
      cases hnone.symm.trans hreads.handler
    · exact hrefreshes.gone "c.py" (by decide)
    · let denied : FoundFile := ⟨"d.py", 3, .error (.other "denied")⟩
      refine hrefreshes.passed_over denied (by simp [denied]) fun hpath => ?_
      obtain ⟨handler, bytes, hreads, -⟩ :=
        (hrefreshes.extracted_iff denied (by simp [denied])).1 hpath
      cases hreads.content

end Survey

end CodeSurvey
