import CodeSurvey.Proofs.Cache.Codec
import CodeSurvey.Proofs.Extraction.Line
import CodeSurvey.Proofs.Scan.Update
import CodeSurvey.Proofs.Text.Utf8
import Mathlib.Data.Set.Function

/-!
# Faithful stores

In a faithful store every entry is what a scan would extract anew from some content. Scans keep a
store faithful, its text can be read back, and a faithful store gives no extraction that a scan
without a store would not make.
-/
namespace CodeSurvey

/-! ### Fresh files can be written -/

theorem Digest.Blake3.digest_ne_nil (message : List UInt8) : digest message ≠ [] := by
  have hwords : ∀ chain : Chain, chain.toList ≠ [] := by
    intro chain h
    have := congrArg List.length h
    simp at this
  rw [digest]
  intro h
  obtain ⟨w, ws, hw⟩ := List.exists_cons_of_ne_nil (hwords (Node.output _))
  rw [hw, List.flatMap_cons] at h
  cases h

theorem Cache.contentHash_ne_empty (bytes : List UInt8) : contentHash bytes ≠ "" := by
  obtain ⟨b, bs, hd⟩ := List.exists_cons_of_ne_nil (Digest.Blake3.digest_ne_nil bytes)
  intro h
  have hchars := congrArg String.toList h
  rw [contentHash, Digest.hex, String.toList_ofList, hd, List.flatMap_cons] at hchars
  cases hchars

namespace Scan

theorem length_splitLines_le (n : Nat) (cs : List Char) :
    (splitLines n cs).1.length ≤ cs.length := by
  induction cs generalizing n with
  | nil => cases n <;> simp [splitLines]
  | cons c cs ih =>
    cases n with
    | zero => simp [splitLines]
    | succ n => simpa [splitLines] using ih _

theorem length_limitLines_le (n : Nat) (cs : List Char) :
    (limitLines n cs).1.length ≤ cs.length := by
  rw [limitLines]
  split
  · exact Nat.le_refl _
  · dsimp only
    split
    · exact Nat.le_refl _
    · exact length_splitLines_le n cs

theorem linesWithin_extract (handler : Handler) (source : SourceFile) :
    (handler.extract source).LinesWithin (Text.lineCount source.content) := by
  cases handler with
  | code r => exact Extraction.linesWithin_ofCode ..
  | document kind => exact Extraction.linesWithin_ofDocument ..

/-- What a computer can address: no file is longer. -/
def maxSize : Nat := UInt64.size / 2

theorem writable_fresh (maxLines : Nat) (handler : Handler) (path : String) {bytes : ByteArray}
    (h : bytes.size < maxSize) : (fresh maxLines handler path bytes).extraction.Writable := by
  have hlines := linesWithin_extract handler (source maxLines handler path bytes)
  have hcount : Text.lineCount (source maxLines handler path bytes).content < UInt64.size := by
    have hbytes : bytes.toList.length = bytes.size := by
      rw [Text.Utf8.byteArray_toList]
      rfl
    calc Text.lineCount (source maxLines handler path bytes).content
        ≤ (source maxLines handler path bytes).content.length + 1 := Text.lineCount_le _
      _ ≤ (Text.Utf8.decode bytes.toList).length + 1 := Nat.succ_le_succ (length_limitLines_le ..)
      _ ≤ bytes.toList.length + 1 := Nat.succ_le_succ (Text.Utf8.length_decode_le _)
      _ ≤ maxSize := hbytes ▸ h
      _ < UInt64.size := by decide
  exact ⟨fun d hd => Nat.lt_of_le_of_lt (hlines.functions d hd) hcount,
    fun e he => Nat.lt_of_le_of_lt (hlines.entryPoints e he) hcount⟩

end Scan

/-! ### Faithful stores -/

namespace Cache.Store

/-- Every entry is a fresh extraction of some content out of `contents`, with the patterns of the
registry and within the line limit. -/
structure Faithful (registry : Registry) (maxLines : Nat) (contents : Set (List UInt8))
    (s : Store) :
    Prop where
  sorted : s.entries.Sorted
  fresh : ∀ e ∈ s.entries, ∃ (handler : Handler) (bytes : ByteArray) (now : String),
    Handler.ofPath? registry e.1 = some handler ∧ bytes.toList ∈ contents ∧
      e.2 = entryOf now (Scan.fresh maxLines handler e.1 bytes)

variable {registry : Registry} {config : Config} {maxLines : Nat} {contents : Set (List UInt8)}
  {s : Store}

theorem faithful_empty (now : String) : (empty now).Faithful registry maxLines contents :=
  ⟨List.Pairwise.nil, by simp [empty]⟩

theorem Faithful.retain (h : s.Faithful registry maxLines contents) (live : String → Bool) :
    (s.retain live).Faithful registry maxLines contents :=
  ⟨h.sorted.filter _, fun e he => h.fresh e (List.mem_filter.1 he).1⟩

theorem Faithful.isModern (h : s.Faithful registry maxLines contents) : s.IsModern := by
  intro path e he
  obtain ⟨handler, bytes, now, -, -, hentry⟩ := h.fresh _ (Table.mem_of_lookup he)
  simp only at hentry
  subst hentry
  exact ⟨rfl, rfl⟩

/-- Different contents have different digests: nothing is recalled but what would be extracted
anew. -/
theorem Faithful.known? (h : s.Faithful registry maxLines contents)
    (hinj : Set.InjOn contentHash contents) {path : String} {handler : Handler}
    (hh : Handler.ofPath? registry path = some handler) {bytes : ByteArray}
    (hbytes : bytes.toList ∈ contents) {x : Extraction}
    (hx : s.known? (Scan.fresh maxLines handler path bytes) = some x) :
    x = (Scan.fresh maxLines handler path bytes).extraction := by
  obtain ⟨e, he, rfl⟩ := Option.map_eq_some_iff.1 hx
  obtain ⟨hget, hsame⟩ := Option.filter_eq_some_iff.1 he
  obtain ⟨handler', other, now, hh', hother, hentry⟩ := h.fresh _ (Table.mem_of_lookup hget)
  have hhandler : handler' = handler := Option.some.inj (hh'.symm.trans hh)
  simp only [hhandler] at hentry
  subst hentry
  have hhash : contentHash other.toList = contentHash bytes.toList := by
    simp only [Bool.and_eq_true, beq_iff_eq] at hsame
    exact hsame.1
  have hsource : Scan.source maxLines handler path other =
      Scan.source maxLines handler path bytes := by
    rw [Scan.source, Scan.source, hinj hother hbytes hhash]
  exact congrArg handler.extract hsource

theorem Faithful.writable (h : s.Faithful registry maxLines contents)
    (hversion : ∀ path handler, Handler.ofPath? registry path = some handler →
      handler.patternVersion < UInt32.size)
    (hsize : ∀ bytes ∈ contents, bytes.length < Scan.maxSize) : s.Writable := by
  refine ⟨h.sorted, fun e he => ?_⟩
  obtain ⟨handler, bytes, now, hh, hbytes, hentry⟩ := h.fresh e he
  rw [hentry]
  refine ⟨contentHash_ne_empty _, ?_, ?_⟩
  · intro v hv
    obtain rfl := Option.some.inj hv
    exact hversion _ _ hh
  · refine Scan.writable_fresh maxLines handler e.1 ?_
    have hlength := hsize _ hbytes
    rw [Text.Utf8.byteArray_toList] at hlength
    exact hlength

theorem Faithful.recalled_unmarked (h : s.Faithful registry maxLines contents)
    (hinj : Set.InjOn contentHash contents) {path : String} {handler : Handler}
    (hh : Handler.ofPath? registry path = some handler) {bytes : ByteArray}
    (hbytes : bytes.toList ∈ contents) :
    (s.recalled (Scan.fresh maxLines handler path bytes)).unmarked =
      Scan.fresh maxLines handler path bytes := by
  rw [recalled, ExtractedFile.unmarked]
  cases hx : s.known? (Scan.fresh maxLines handler path bytes) with
  | none => rfl
  | some x => rw [Option.getD_some, h.known? hinj hh hbytes hx]; rfl

/-- A scan keeps a store faithful. -/
theorem Faithful.updateStore (h : s.Faithful registry config.maxLines contents)
    {found : List FoundFile}
    (hcontents : ∀ g ∈ found, ∀ bytes, g.content = .ok bytes → bytes.toList ∈ contents)
    (now : String) (live : String → Bool) :
    (Scan.updateStore now live
      ((Scan.freshFiles config registry found).map s.recalled) s).Faithful
      registry config.maxLines contents := by
  refine ⟨sorted_updateStore h.sorted h.isModern now live _, fun e he => ?_⟩
  rw [entries_updateStore h.isModern] at he
  rcases Table.mem_foldl_insert (List.mem_filter.1 he).1 with hnew | hold
  · -- a file that was not recalled is stored as it was extracted
    obtain ⟨f, hf, rfl⟩ := List.mem_map.1 hnew
    obtain ⟨hf, hmark⟩ := List.mem_filter.1 hf
    obtain ⟨f, hfresh, rfl⟩ := List.mem_map.1 hf
    obtain ⟨g, hg, handler, bytes, hreads, rfl⟩ := Scan.mem_freshFiles.1 hfresh
    have hnone : s.known? (Scan.fresh config.maxLines handler g.path bytes) = none := by
      simpa [recalled] using hmark
    have hsame : s.recalled (Scan.fresh config.maxLines handler g.path bytes) =
        Scan.fresh config.maxLines handler g.path bytes := by
      rw [recalled, hnone]
      rfl
    rw [hsame]
    exact ⟨handler, bytes, now, hreads.handler, hcontents g hg bytes hreads.content, rfl⟩
  · exact h.fresh e hold

end Cache.Store

theorem Handler.patternVersion_builtin {path : String} {handler : Handler}
    (h : ofPath? .builtin path = some handler) : handler.patternVersion = 1 := by
  have hall : ∀ e ∈ Registry.builtin.entries, e.2.capabilities.patternVersion = 1 := by decide
  rw [ofPath?, Option.or_eq_some_iff] at h
  rcases h with h | ⟨-, h⟩
  · obtain ⟨r, hr, rfl⟩ := Option.map_eq_some_iff.1 h
    obtain ⟨extension, -, hr⟩ := Option.bind_eq_some_iff.1 hr
    exact hall _ (Table.mem_of_lookup hr)
  · obtain ⟨kind, -, rfl⟩ := Option.map_eq_some_iff.1 h
    rfl

/-! ### Scans with a faithful store -/

namespace Scan

variable {config : Config} {registry : Registry} {contents : Set (List UInt8)} {store : Cache.Store}
  {entries : List (FileName × FileTree)} (hsteady : registry.IsSteady)
  (h : store.Faithful registry config.maxLines contents)
  (hcontents : ∀ g ∈ (FileTree.listing config.root config.excludeNames entries).files,
  ∀ bytes, g.content = .ok bytes → bytes.toList ∈ contents)
include hsteady h hcontents

theorem faithful_run (now : String) (workspaces : Option WorkspaceTable) :
    (run now registry config entries workspaces store).2.Faithful registry config.maxLines
      contents := by
  rw [run_eq]
  simp only [files_extractFiles config hsteady h.isModern]
  exact h.updateStore hcontents now _

theorem unmarked_run (hinj : Set.InjOn Cache.contentHash contents) (now : String)
    (workspaces : Option WorkspaceTable) :
    (run now registry config entries workspaces store).1.unmarked =
      (run now registry config entries workspaces (.empty now)).1 := by
  let found := (FileTree.listing config.root config.excludeNames entries).files
  have hfiles : ∀ f ∈ freshFiles config registry found, (store.recalled f).unmarked = f := by
    intro f hf
    obtain ⟨g, hg, handler, bytes, hreads, rfl⟩ := mem_freshFiles.1 hf
    exact h.recalled_unmarked hinj hreads.handler (hcontents g hg bytes hreads.content)
  have hmap : ((freshFiles config registry found).map store.recalled).map ExtractedFile.unmarked =
      (extractFiles config registry (.empty now) found).files := by
    rw [List.map_map, files_empty config hsteady]
    exact (List.map_congr_left hfiles).trans (List.map_id' _)
  have hextracted : (extractFiles config registry store found).unmarked =
      extractFiles config registry (.empty now) found := by
    rw [extractFiles_eq config hsteady h.isModern now, Extracted.unmarked]
    simp only [hmap]
  rw [run_eq, run_eq, report_unmarked, hextracted]

end Scan

end CodeSurvey
