import CodeSurvey.Proofs.Cache.Codec
import CodeSurvey.Proofs.Scan.Update
import Mathlib.Data.List.Nodup

/-!
# Scans after a first one

What a scan takes from the store that a first scan of the same files left. The last file of a path
is the one that is kept; it is served to a file of that path with the same content, unless the path
has an underscore in front. The line limit has no part in that.
-/
namespace CodeSurvey

namespace Scan

/-- The last file of a path, which is the one that a store keeps. -/
def lastOf (files : List ExtractedFile) (path : String) : Option ExtractedFile :=
  files.reverse.find? (·.path == path)

/-- What a scan after that of `files` takes from the store for a file. -/
def served (files : List ExtractedFile) (f : ExtractedFile) : Option Extraction :=
  if Cache.Store.isHidden f.path then none
  else ((lastOf files f.path).filter (·.source.contentHash == f.source.contentHash)).map
    (·.extraction)

/-- A file with what is served for it. -/
def serve (files : List ExtractedFile) (f : ExtractedFile) : ExtractedFile :=
  { f with extraction := (served files f).getD f.extraction, fromCache := (served files f).isSome }

theorem lookup_reverse_map (entry : ExtractedFile → Cache.Entry) (files : List ExtractedFile)
    (path : String) :
    (files.map fun f => (f.path, entry f)).reverse.lookup path = (lastOf files path).map entry := by
  rw [← List.map_reverse, lastOf]
  induction files.reverse with
  | nil => rfl
  | cons f files ih =>
    rw [List.map_cons, Table.lookup_cons_eq_ite, List.find?_cons]
    by_cases hpath : path = f.path
    · simp [hpath]
    · have hother : (f.path == path) = false := beq_eq_false_iff_ne.2 (Ne.symm hpath)
      simp [hpath, hother, ih]

theorem mem_of_lastOf {files : List ExtractedFile} {path : String} {f : ExtractedFile}
    (h : lastOf files path = some f) : f ∈ files ∧ f.path = path := by
  have hmem := List.mem_of_find?_eq_some h
  have hpath := List.find?_some h
  exact ⟨List.mem_reverse.1 hmem, by simpa using hpath⟩

theorem lastOf_eq_none {files : List ExtractedFile} {path : String}
    (h : path ∉ files.map ExtractedFile.path) :
    lastOf files path = none := by
  refine List.find?_eq_none.2 fun f hf hpath => h ?_
  exact List.mem_map.2 ⟨f, List.mem_reverse.1 hf, by simpa using hpath⟩

variable {config : Config} {registry : Registry} {found : List FoundFile}

theorem path_of_freshFile? {g : FoundFile} {f : ExtractedFile}
    (h : freshFile? config registry g = some f) :
    f.path = g.path := by
  obtain ⟨handler, bytes, -, rfl⟩ := freshFile?_eq_some_iff.1 h
  rfl

theorem paths_freshFiles_sublist :
    ((freshFiles config registry found).map ExtractedFile.path).Sublist
    (found.map FoundFile.path) :=
  paths_filterMap_sublist (fun _ _ => path_of_freshFile?) found

theorem filter_freshFiles :
    (freshFiles config registry found).filter (!·.fromCache) =
      freshFiles config registry found := by
  refine List.filter_eq_self.2 fun f hf => ?_
  obtain ⟨g, -, handler, bytes, -, rfl⟩ := mem_freshFiles.1 hf
  rfl

/-- The store that a first scan leaves, as it is read back. -/
def firstStore (config : Config) (registry : Registry) (found : List FoundFile) (now : String) :
    Cache.Store :=
  (updateStore now (Std.HashSet.ofList (found.map FoundFile.path)).contains
    (freshFiles config registry found) (.empty now)).retain fun p => !Cache.Store.isHidden p

theorem get?_firstStore (now path : String) :
    (firstStore config registry found now).get? path =
      if Cache.Store.isHidden path then none
      else (lastOf (freshFiles config registry found) path).map (Cache.Store.entryOf now) := by
  rw [firstStore, Cache.Store.get?, Cache.Store.retain, Table.get?,
    Table.lookup_filter path fun p => !Cache.Store.isHidden p]
  cases hhidden : Cache.Store.isHidden path with
  | true => rfl
  | false =>
    have hget := Cache.Store.get?_updateStore (isModern_empty now) now
      (Std.HashSet.ofList (found.map FoundFile.path)).contains
      (freshFiles config registry found) path
    rw [filter_freshFiles, lookup_reverse_map] at hget
    refine hget.trans ?_
    cases hlast : lastOf (freshFiles config registry found) path with
    | none => simp [Cache.Store.get?, Cache.Store.empty, Table.get?]
    | some f =>
      -- a file that was scanned is among the files that exist
      obtain ⟨hf, hpath⟩ := mem_of_lastOf hlast
      have hlive : path ∈ found.map FoundFile.path :=
        hpath ▸ paths_freshFiles_sublist.subset (List.mem_map_of_mem hf)
      simp [hlive]

/-- Files of one path are read by the same patterns. -/
theorem patternVersion_eq {config other : Config} {found listed : List FoundFile}
    {f g : ExtractedFile} (hf : f ∈ freshFiles config registry found)
    (hg : g ∈ freshFiles other registry listed) (hpath : f.path = g.path) :
    f.patternVersion = g.patternVersion ∧
    f.extraction.fileMeta.language = g.extraction.fileMeta.language := by
  obtain ⟨f, -, handler, bytes, hreads, rfl⟩ := mem_freshFiles.1 hf
  obtain ⟨g, -, handler', bytes', hreads', rfl⟩ := mem_freshFiles.1 hg
  have hh := hreads.handler
  have hpaths : f.path = g.path := hpath
  rw [hpaths] at hh
  obtain rfl := Option.some.inj (hh.symm.trans hreads'.handler)
  cases handler <;> exact ⟨rfl, rfl⟩

theorem recalled_firstStore {config other : Config} {found listed : List FoundFile} (now : String)
    {f : ExtractedFile} (hf : f ∈ freshFiles other registry listed) :
    (firstStore config registry found now).recalled f =
      serve (freshFiles config registry found) f := by
  have hknown : (firstStore config registry found now).known? f =
      served (freshFiles config registry found) f := by
    rw [Cache.Store.known?, get?_firstStore, served]
    split
    · rfl
    · cases hlast : lastOf (freshFiles config registry found) f.path with
      | none => rfl
      | some g =>
        obtain ⟨hg, hpath⟩ := mem_of_lastOf hlast
        have hversion := (patternVersion_eq hg hf hpath).1
        by_cases hhash : g.source.contentHash = f.source.contentHash <;>
          simp [Cache.Store.entryOf, Option.filter_some, hversion, hhash]
  rw [Cache.Store.recalled, hknown, serve]

/-! ### Trees without two files of one path -/

theorem lastOf_of_nodup {files : List ExtractedFile} (h : (files.map ExtractedFile.path).Nodup)
    {f : ExtractedFile} (hf : f ∈ files) : lastOf files f.path = some f := by
  cases hlast : lastOf files f.path with
  | none =>
    have hnone := List.find?_eq_none.1 hlast f (List.mem_reverse.2 hf)
    simp at hnone
  | some g =>
    obtain ⟨hg, hpath⟩ := mem_of_lastOf hlast
    rw [List.inj_on_of_nodup_map h hg hf hpath]

/-- A file is served with what the first scan made of it, within the limit of that scan. -/
theorem served_fresh (h : (found.map FoundFile.path).Nodup) {g : FoundFile} (hg : g ∈ found)
    {handler : Handler} {bytes : ByteArray} (hreads : Reads config registry g handler bytes)
    (n : Nat) : served (freshFiles config registry found) (fresh n handler g.path bytes) =
      if Cache.Store.isHidden g.path then none
      else some (fresh config.maxLines handler g.path bytes).extraction := by
  have hfresh := mem_freshFiles.2 ⟨g, hg, handler, bytes, hreads, rfl⟩
  have hlast : lastOf (freshFiles config registry found) (fresh n handler g.path bytes).path =
      some (fresh config.maxLines handler g.path bytes) :=
    lastOf_of_nodup (paths_freshFiles_sublist.nodup h) hfresh
  have hhash : (fresh config.maxLines handler g.path bytes).source.contentHash =
      (fresh n handler g.path bytes).source.contentHash := rfl
  rw [served, hlast, Option.filter_some, hhash, beq_self_eq_true]
  rfl

theorem unmarked_serve (h : (found.map FoundFile.path).Nodup) {f : ExtractedFile}
    (hf : f ∈ freshFiles config registry found) :
    (serve (freshFiles config registry found) f).unmarked = f ∧
      (serve (freshFiles config registry found) f).fromCache = !Cache.Store.isHidden f.path := by
  obtain ⟨g, hg, handler, bytes, hreads, rfl⟩ := mem_freshFiles.1 hf
  have hserved := served_fresh h hg hreads config.maxLines
  have hpath : (fresh config.maxLines handler g.path bytes).path = g.path := rfl
  rw [serve, hserved, hpath]
  cases Cache.Store.isHidden g.path <;> exact ⟨rfl, rfl⟩

/-! ### The line limit -/

/-- What a file declares, needs and is for. -/
def findings (f : ExtractedFile) :
    List Declaration × ImportTokens × Option String × List EntryPoint :=
  (f.extraction.functions, f.extraction.fileMeta.imports, f.extraction.fileMeta.purpose,
    f.extraction.fileMeta.entryPoints)

/-- Every file has the findings of its text within the limit, as `bare` has them, and knows whether
that text was cut. -/
def HonoursLimit (files bare : List ExtractedFile) : Prop :=
  files.map findings = bare.map findings ∧
  ∀ f ∈ files, f.source.wasTruncated = f.extraction.fileMeta.wasTruncated

theorem wasTruncated_extract (handler : Handler) (source : SourceFile) :
    (handler.extract source).fileMeta.wasTruncated = source.wasTruncated := by
  cases handler <;> rfl

theorem wasTruncated_of_mem_freshFiles {f : ExtractedFile}
    (hf : f ∈ freshFiles config registry found) :
    f.extraction.fileMeta.wasTruncated = f.source.wasTruncated := by
  obtain ⟨g, -, handler, bytes, -, rfl⟩ := mem_freshFiles.1 hf
  exact wasTruncated_extract handler _

theorem language_of_served {config other : Config} {found listed : List FoundFile}
    {f : ExtractedFile} (hf : f ∈ freshFiles other registry listed) {x : Extraction}
    (hx : served (freshFiles config registry found) f = some x) :
    x.fileMeta.language = f.extraction.fileMeta.language := by
  rw [served] at hx
  split at hx
  · cases hx
  · obtain ⟨g, hlast, rfl⟩ := Option.map_eq_some_iff.1 hx
    obtain ⟨hg, hpath⟩ := mem_of_lastOf (Option.filter_eq_some_iff.1 hlast).1
    exact (patternVersion_eq hg hf hpath).2

/-- The findings, the language and the mark of a cut are all that there is to an extraction. -/
theorem eq_of_findings {f : ExtractedFile} {x : Extraction} {fromCache : Bool}
    (hfindings : findings { f with extraction := x, fromCache } = findings f)
    (hlanguage : x.fileMeta.language = f.extraction.fileMeta.language)
    (hcut : x.fileMeta.wasTruncated = f.extraction.fileMeta.wasTruncated) : x = f.extraction := by
  obtain ⟨source, y, version, mark⟩ := f
  obtain ⟨functions, language, purpose, imports, entryPoints, cut⟩ := x
  obtain ⟨functions', language', purpose', imports', entryPoints', cut'⟩ := y
  simp only [findings, Prod.mk.injEq] at hfindings hlanguage hcut
  obtain ⟨rfl, rfl, rfl, rfl⟩ := hfindings
  rw [hlanguage, hcut]

theorem honoursLimit_serve_iff {config other : Config} {found listed : List FoundFile} :
    HonoursLimit ((freshFiles other registry listed).map (serve (freshFiles config registry found)))
        (freshFiles other registry listed) ↔
      ∀ f ∈ freshFiles other registry listed, ∀ x,
        served (freshFiles config registry found) f = some x → x = f.extraction := by
  rw [HonoursLimit, List.map_map, List.map_inj_left, List.forall_mem_map]
  constructor
  · rintro ⟨hfindings, hcut⟩ f hf x hx
    have hlanguage := language_of_served hf hx
    have hfound := hfindings f hf
    have hflag := hcut f hf
    rw [Function.comp_apply, serve, hx] at hfound
    rw [serve, hx] at hflag
    exact eq_of_findings hfound hlanguage
      (hflag.symm.trans (wasTruncated_of_mem_freshFiles hf).symm)
  · intro h
    have hserve : ∀ f ∈ freshFiles other registry listed,
        (serve (freshFiles config registry found) f).extraction = f.extraction := by
      intro f hf
      cases hx : served (freshFiles config registry found) f with
      | none => rw [serve, hx]; rfl
      | some x => rw [serve, hx, ← h f hf x hx]; rfl
    refine ⟨fun f hf => ?_, fun f hf => ?_⟩
    · rw [Function.comp_apply, findings, hserve f hf]
      rfl
    · rw [hserve f hf, wasTruncated_of_mem_freshFiles hf]
      rfl

/-- Without two files of one path, what is served is right if and only if the limits of the two
scans make no difference to it. -/
theorem forall_served_iff (h : (found.map FoundFile.path).Nodup) (n : Nat) :
    (∀ f ∈ freshFiles { config with maxLines := n } registry found, ∀ x,
        served (freshFiles config registry found) f = some x → x = f.extraction) ↔
      ∀ g ∈ found, ∀ handler bytes, Reads config registry g handler bytes →
        Cache.Store.isHidden g.path = false →
        (fresh config.maxLines handler g.path bytes).extraction =
          (fresh n handler g.path bytes).extraction := by
  constructor
  · intro hserved g hg handler bytes hreads hhidden
    have hother : Reads { config with maxLines := n } registry g handler bytes :=
      ⟨hreads.handler, hreads.size, hreads.content⟩
    refine hserved (fresh n handler g.path bytes)
      (mem_freshFiles.2 ⟨g, hg, handler, bytes, hother, rfl⟩) _ ?_
    rw [served_fresh h hg hreads n, hhidden]
    rfl
  · intro hsame f hf x hx
    obtain ⟨g, hg, handler, bytes, hother, rfl⟩ := mem_freshFiles.1 hf
    -- the limit of lines does not tell which files are too large
    have hreads : Reads config registry g handler bytes :=
      ⟨hother.handler, hother.size, hother.content⟩
    have hx := (served_fresh h hg hreads n).symm.trans hx
    cases hhidden : Cache.Store.isHidden g.path with
    | true =>
      rw [hhidden] at hx
      cases hx
    | false =>
      rw [hhidden] at hx
      exact (Option.some.inj hx).symm.trans (hsame g hg handler bytes hreads hhidden)

end Scan

end CodeSurvey
