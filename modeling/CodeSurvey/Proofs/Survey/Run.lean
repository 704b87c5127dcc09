import CodeSurvey.Proofs.Disk
import CodeSurvey.Proofs.Scan.Faithful

/-!
# Surveys of a disk

A survey of a disk is a scan of the tree at its root, between the loading of a store and its saving.
On a disk whose clock stands still the phases take no time, so that the stamp says nothing of the
store.
-/
namespace CodeSurvey

/-- What a survey gives. -/
abbrev Survey.Result := Except SurveyError (Report × Stamp)

namespace Survey

open Disk (run_bind)

variable {d : Disk} {now path : String}

/-! ### Loading and saving -/

theorem loadStore_missing (h : d.read path = .error .missing) :
    (loadStore (Disk.host now) now path).run d = ((.empty now, []), d) := by
  have hread : ((Disk.host now).read path).run d = (.error .missing, d) := by
    rw [← h]
    rfl
  have htext : (readText (Disk.host now) path).run d = (.error .missing, d) := run_bind hread
  have hdocument : (readDocument (Disk.host now) path (Cache.Store.parse? now)).run d =
      (.error (.inaccessible path .missing), d) := run_bind htext
  exact run_bind hdocument

theorem loadStore_print {s : Cache.Store} (hs : s.Writable) (h : d.read path = .ok s.print.toUTF8) :
    (loadStore (Disk.host now) now path).run d =
      ((s.retain fun p => !Cache.Store.isHidden p, []), d) := by
  have hread : ((Disk.host now).read path).run d = (.ok s.print.toUTF8, d) := by
    rw [← h]
    rfl
  have htext : (readText (Disk.host now) path).run d = (.ok s.print, d) := by
    refine (run_bind hread).trans ?_
    simp only [Text.Utf8.decode?_toUTF8, String.ofList_toList]
    rfl
  have hdocument : (readDocument (Disk.host now) path (Cache.Store.parse? now)).run d =
      (.ok (s.retain fun p => !Cache.Store.isHidden p, []), d) := by
    refine (run_bind htext).trans ?_
    simp only [Cache.Store.parse?_print hs]
    rfl
  exact run_bind hdocument

/-- Loading a store leaves the disk as it is. -/
theorem exists_loadStore (d : Disk) (now path : String) :
    ∃ store warnings, (loadStore (Disk.host now) now path).run d = ((store, warnings), d) := by
  have hread : ((Disk.host now).read path).run d = (d.read path, d) := rfl
  obtain ⟨text, htext⟩ : ∃ text, (readText (Disk.host now) path).run d = (text, d) := by
    rw [readText, run_bind hread]
    split
    · exact ⟨_, rfl⟩
    · split <;> exact ⟨_, rfl⟩
  obtain ⟨document, hdocument⟩ : ∃ document,
      (readDocument (Disk.host now) path (Cache.Store.parse? now)).run d = (document, d) := by
    rw [readDocument, run_bind htext]
    split
    · exact ⟨_, rfl⟩
    · split <;> exact ⟨_, rfl⟩
  rw [loadStore, run_bind hdocument]
  split <;> exact ⟨_, _, rfl⟩

theorem saveStore_of_rename {written moved : Disk} {s : Cache.Store}
    (hwrite : d.write (temporaryPath path) s.print.toUTF8 = .ok written)
    (hmove : written.rename (temporaryPath path) path = .ok moved) :
    (saveStore (Disk.host now) path s).run d = ([], moved) := by
  have hwritten : ((Disk.host now).write (temporaryPath path) s.print.toUTF8).run d =
    (.ok (), written) :=
    Disk.run_change hwrite
  have hmoved : ((Disk.host now).rename (temporaryPath path) path).run written = (.ok (), moved) :=
    Disk.run_change hmove
  exact (run_bind hwritten).trans (run_bind hmoved)

theorem saveStore_replace (h : d.CanReplace path) (now : String) (s : Cache.Store) :
    ∃ saved, (saveStore (Disk.host now) path s).run d = ([], saved) ∧
    saved.read path = .ok s.print.toUTF8 := by
  obtain ⟨written, moved, hwrite, hmove, hread⟩ := h s.print.toUTF8
  exact ⟨moved, saveStore_of_rename hwrite hmove, hread⟩

/-! ### A survey as a scan -/

/-- The phases of a scan, in their order. -/
def phases (workspaces : Option WorkspaceTable) : List Phase :=
  [.listing, .extraction, .imports, .calls, .analysis, .complexity] ++
    (workspaces.map fun _ => Phase.workspaces).toList

/-- The stamp of a survey of a disk. -/
def stamp (now : String) (config : Config) (workspaces : Option WorkspaceTable) : Stamp :=
  ⟨now, config.root, (phases workspaces).map fun phase => (phase, 0.0 - 0.0)⟩

/-- The disk as a host whose workers start or do not. -/
def hostWith (now : String) (started : Except String Unit) : Host (StateM Disk) :=
  { Disk.host now with startWorkers := fun _ => pure started }

theorem run_timed (now : String) (started : Except String Unit) (registry : Registry)
    (config : Config) (entries : List (FileName × FileTree)) (workspaces : Option WorkspaceTable)
    (store : Cache.Store) (d : Disk) :
    ((Scan.runPhases (timed (hostWith now started)) now registry config entries workspaces
      store).run []).run d =
        ((Scan.run now registry config entries workspaces store,
          (stamp now config workspaces).timings), d) := by
  cases workspaces <;> rfl

variable {config : Config} {workspaces : Option WorkspaceTable}

theorem run_now (d : Disk) : (Disk.host now).now.run d = (now, d) :=
  rfl

theorem run_tree (d : Disk) (started : Except String Unit) (excluded : String → Bool)
    (root : String) :
    ((hostWith now started).tree excluded root).run d = ((d.find root).map Prod.snd, d) :=
  rfl

theorem rootEntries_eq_ok_iff {root : String} {found : Except DiskFault (List FileName × FileTree)}
    {entries : List (FileName × FileTree)} : rootEntries root (found.map Prod.snd) = .ok entries ↔
      ∃ place, found = .ok (place, .folder entries) := by
  rcases found with fault | ⟨place, t⟩
  · simp [Except.map, rootEntries]
  · cases t <;> simp [Except.map, rootEntries]

section ScanRoot

variable {started : Except String Unit} {registry : Registry} {store : Cache.Store}

theorem scanRoot_of_folder {place : List FileName} {entries : List (FileName × FileTree)}
    (hfind : d.find config.root = .ok (place, .folder entries)) :
    (scanRoot (hostWith now (.ok ())) now registry config workspaces store).run d =
      ((.ok ((Scan.run now registry config entries workspaces store).1,
          (stamp now config workspaces).timings),
        (Scan.run now registry config entries workspaces store).2), d) := by
  have htree : ((hostWith now (.ok ())).tree config.excludeNames.contains config.root).run d =
      (.ok (.folder entries), d) := by
    rw [run_tree, hfind]
    rfl
  have hworkers : ((hostWith now (.ok ())).startWorkers config.jobs).run d = (.ok (), d) := rfl
  exact (run_bind htree).trans ((run_bind hworkers).trans (run_bind (run_timed ..)))

theorem scanRoot_of_noWorkers {reason : String} {place : List FileName}
    {entries : List (FileName × FileTree)}
    (hfind : d.find config.root = .ok (place, .folder entries)) :
    (scanRoot (hostWith now (.error reason)) now registry config workspaces store).run d =
      ((.error (.noWorkers reason), store), d) := by
  have htree : ((hostWith now (.error reason)).tree config.excludeNames.contains
      config.root).run d = (.ok (.folder entries), d) := by
    rw [run_tree, hfind]
    rfl
  exact run_bind htree

theorem scanRoot_of_rootError {e : SurveyError}
    (he : rootEntries config.root ((d.find config.root).map Prod.snd) = .error e) :
    (scanRoot (hostWith now started) now registry config workspaces store).run d =
      ((.error e, store), d) := by
  refine (run_bind (run_tree ..)).trans ?_
  rw [he]
  rfl

end ScanRoot

/-- The report with what loading and saving the store have to say. -/
def withWarnings (warnings : List Warning) (report : Report) : Report :=
  { report with warnings := warnings ++ report.warnings }

theorem run_of_folder {store : Cache.Store} {place : List FileName}
    {entries : List (FileName × FileTree)} {saved : Disk} {loaded warnings : List Warning}
    (hload : (loadStore (Disk.host now) now path).run d = ((store, loaded), d))
    (hfind : d.find config.root = .ok (place, .folder entries))
    (hsave : (saveStore (Disk.host now) path
      (Scan.run now .builtin config entries workspaces store).2).run d =
      (warnings, saved)) :
    (run (Disk.host now) config (some path) workspaces).run d =
      (.ok (withWarnings (loaded ++ warnings)
        (Scan.run now .builtin config entries workspaces store).1, stamp now config workspaces),
        saved) :=
  (run_bind (run_now d)).trans ((run_bind hload).trans
    ((run_bind (scanRoot_of_folder hfind)).trans (run_bind hsave)))

/-- The store that a survey starts with. -/
def openStore (now : String) (cachePath : Option String) :
    StateM Disk (Cache.Store × List Warning) :=
  match cachePath with
  | some path => loadStore (Disk.host now) now path
  | none => pure (.empty now, [])

theorem run_none_of_folder {place : List FileName} {entries : List (FileName × FileTree)}
    (hfind : d.find config.root = .ok (place, .folder entries)) :
    (run (Disk.host now) config none workspaces).run d =
      (.ok ((Scan.run now .builtin config entries workspaces (.empty now)).1,
        stamp now config workspaces), d) := by
  have hload : (openStore now none).run d = ((.empty now, []), d) := rfl
  exact (run_bind (run_now d)).trans ((run_bind hload).trans (run_bind (scanRoot_of_folder hfind)))

theorem run_of_rootError {cachePath : Option String} {store : Cache.Store} {warnings : List Warning}
    {e : SurveyError} (hload : (openStore now cachePath).run d = ((store, warnings), d))
    (he : rootEntries config.root ((d.find config.root).map Prod.snd) = .error e) :
    (run (Disk.host now) config cachePath workspaces).run d = (.error e, d) := by
  cases cachePath
  all_goals
    exact (run_bind (run_now d)).trans ((run_bind hload).trans
      (run_bind (scanRoot_of_rootError he)))

/-! ### A store beside a tree -/

theorem run_beside (hroot : config.root = "/src") (src : List (FileName × FileTree))
    (store : Option ByteArray) (now : String) (workspaces : Option WorkspaceTable) :
    ∃ bytes, ((run (Disk.host now) config (some "/store.json") workspaces).run
      (.beside src store)).2 =
      .beside src (some bytes) := by
  have hfind : (Disk.beside src store).find config.root = .ok (["src"], .folder src) :=
    hroot ▸ Disk.find_beside src store
  obtain ⟨s, loaded, hload⟩ := exists_loadStore (.beside src store) now "/store.json"
  obtain ⟨written, hwrite, hmove⟩ := Disk.replace_beside src store
    (Scan.run now .builtin config src workspaces s).2.print.toUTF8
  rw [run_of_folder hload hfind (saveStore_of_rename hwrite hmove)]
  exact ⟨_, rfl⟩

end Survey

end CodeSurvey
