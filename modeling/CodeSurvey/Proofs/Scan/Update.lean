import CodeSurvey.Proofs.Scan.Recall

/-!
# The store after a scan

What a scan leaves in a store: the files that were extracted anew, over what was there before, as
far as the files still exist.
-/
namespace CodeSurvey.Cache.Store

/-- The entry of a file that was extracted at a given time. -/
def entryOf (now : String) (f : ExtractedFile) : Entry :=
  ⟨f.source.contentHash, .blake3, some f.patternVersion, now, f.extraction⟩

theorem not_isLegacy {s : Store} (h : s.IsModern) (path : String) : s.isLegacy path = false := by
  rw [isLegacy]
  cases he : s.get? path with
  | none => rfl
  | some e =>
    obtain ⟨hkind, hversion⟩ := h path e he
    obtain ⟨v, hv⟩ := Option.isSome_iff_exists.1 hversion
    simp [Entry.isLegacy, hkind, hv]

theorem entries_foldl_insert (now : String) (files : List ExtractedFile) (s : Store) :
    (files.foldl (fun s f => s.insert now f.path f.source.contentHash f.patternVersion f.extraction)
      s).entries =
      (files.map fun f => (f.path, entryOf now f)).foldl (fun t (k, v) => t.insert k v)
        s.entries := by
  induction files generalizing s with
  | nil => rfl
  | cons f files ih => rw [List.foldl_cons, ih, List.map_cons, List.foldl_cons]; rfl

/-- The files whose entries are written anew. -/
def refreshed (s : Store) (files : List ExtractedFile) : List ExtractedFile :=
  files.filter fun f => !f.fromCache || s.isLegacy f.path

theorem refreshed_of_isModern {s : Store} (h : s.IsModern) (files : List ExtractedFile) :
    s.refreshed files = files.filter (!·.fromCache) := by
  simp [refreshed, not_isLegacy h]

theorem entries_updateStore_eq (now : String) (live : String → Bool) (files : List ExtractedFile)
    (s : Store) :
    (Scan.updateStore now live files s).entries =
      (((s.refreshed files).map fun f => (f.path, entryOf now f)).foldl
        (fun t (k, v) => t.insert k v) s.entries).filter fun e => live e.1 := by
  rw [Scan.updateStore, retain, ← refreshed, entries_foldl_insert]

theorem get?_updateStore_eq (now : String) (live : String → Bool) (files : List ExtractedFile)
    (s : Store) (path : String) :
    (Scan.updateStore now live files s).get? path =
      if live path then
        (((s.refreshed files).map fun f => (f.path, entryOf now f)).reverse.lookup path).or
        (s.get? path)
      else none := by
  rw [get?, entries_updateStore_eq, Table.get?, Table.lookup_filter path live]
  congr 1
  exact Table.get?_foldl_insert path _ s.entries

theorem entries_updateStore {s : Store} (h : s.IsModern) (now : String) (live : String → Bool)
    (files : List ExtractedFile) :
    (Scan.updateStore now live files s).entries =
      (((files.filter (!·.fromCache)).map fun f => (f.path, entryOf now f)).foldl
        (fun t (k, v) => t.insert k v) s.entries).filter fun e => live e.1 := by
  rw [entries_updateStore_eq, refreshed_of_isModern h]

theorem get?_updateStore {s : Store} (h : s.IsModern) (now : String) (live : String → Bool)
    (files : List ExtractedFile) (path : String) :
    (Scan.updateStore now live files s).get? path =
      if live path then
        (((files.filter (!·.fromCache)).map fun f => (f.path, entryOf now f)).reverse.lookup
          path).or (s.get? path)
      else none := by
  rw [get?_updateStore_eq, refreshed_of_isModern h]

theorem sorted_updateStore {s : Store} (hs : s.entries.Sorted) (h : s.IsModern) (now : String)
    (live : String → Bool) (files : List ExtractedFile) :
    (Scan.updateStore now live files s).entries.Sorted := by
  rw [entries_updateStore h]
  exact (Table.sorted_foldl_insert _ hs).filter _

end CodeSurvey.Cache.Store
