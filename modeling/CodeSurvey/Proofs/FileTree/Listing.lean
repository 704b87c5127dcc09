import CodeSurvey.FileTree.Listing
import CodeSurvey.Proofs.Text.Order
import Mathlib.Data.List.Nodup

/-!
# The files of a listing

A file is known by the names that lead to it. A listing writes these names as one path, in which
replacements stand for what is not text and a backslash counts as a divider. So two files share a
path exactly when their names look the same once they are cut at backslashes, and the paths of a
listing tell its files apart exactly when no two files do.
-/
namespace CodeSurvey

/-! ### Names -/

namespace FileName

/-- The name is text throughout. -/
def IsText (name : FileName) : Prop :=
  ∃ s, name = ofString s

theorem chars_ofString (s : String) : (ofString s).chars = s.toList := by
  rw [chars, ofString, Text.Utf8.decode, Text.Utf8.decodeFrom_flatMap]

theorem IsText.eq_of_chars {a b : FileName} (ha : a.IsText) (hb : b.IsText)
    (h : a.chars = b.chars) : a = b := by
  obtain ⟨s, rfl⟩ := ha
  obtain ⟨t, rfl⟩ := hb
  rw [chars_ofString, chars_ofString] at h
  rw [String.toList_inj.1 h]

theorem slash_notMem_chars {name : FileName} (h : 0x2F ∉ name.bytes) : '/' ∉ name.chars := by
  intro hmem
  obtain ⟨b, hb, hslash⟩ :=
    Text.Utf8.mem_decodeFrom_ascii (by decide) (by decide) (by simp) hmem
  have hbyte : b = 0x2F := UInt8.toNat_inj.1 hslash
  exact h (hbyte ▸ hb)

end FileName

/-- What a record says of its file. -/
def FoundFile.data (g : FoundFile) : FileData :=
  ⟨.ok g.size, g.content⟩

namespace FileTree

/-- The names that a file system can hold: within a folder they are distinct, and none has a slash
in it. -/
inductive WellNamed : FileTree → Prop
  | leaf {t : FileTree} (h : ∀ entries, t ≠ .folder entries) : WellNamed t
  | folder {entries : List (FileName × FileTree)} (distinct : (entries.map Prod.fst).Nodup)
      (plain : ∀ e ∈ entries, 0x2F ∉ e.1.bytes) (below : ∀ e ∈ entries, WellNamed e.2) :
      WellNamed (.folder entries)

theorem wellNamed_ofBytes (bytes : ByteArray) : (ofBytes bytes).WellNamed :=
  .leaf (by simp [ofBytes])

/-! ### All files -/

mutual

/-- All files of a tree under the names that lead to them. Links are not followed. -/
def regularFiles : FileTree → List (List FileName × FileData)
  | .file data => [([], data)]
  | .folder entries => regularFilesIn entries
  | .link _ | .closed _ | .unknown _ | .lost _ => []

def regularFilesOfEntry : FileName × FileTree → List (List FileName × FileData)
  | (name, t) => (regularFiles t).map fun p => (name :: p.1, p.2)

def regularFilesIn : List (FileName × FileTree) → List (List FileName × FileData)
  | [] => []
  | entry :: rest => regularFilesOfEntry entry ++ regularFilesIn rest

end

/-- No name is excluded, and no folder on the way is hidden. -/
def Eligible (excluded : List String) (names : List FileName) : Prop :=
  (∀ name ∈ names, name.text ∉ excluded) ∧ ∀ name ∈ names.dropLast, name.chars.head? ≠ some '.'

instance (excluded : List String) (names : List FileName) : Decidable (Eligible excluded names) :=
  inferInstanceAs (Decidable (_ ∧ _))

variable {excluded : List String}

theorem regularFilesIn_eq_flatMap (entries : List (FileName × FileTree)) :
    regularFilesIn entries = entries.flatMap regularFilesOfEntry := by
  induction entries with
  | nil => rfl
  | cons e entries ih => rw [regularFilesIn, ih, List.flatMap_cons]

theorem mem_regularFilesOfEntry {e : FileName × FileTree} {names : List FileName}
    {data : FileData} : (names, data) ∈ regularFilesOfEntry e ↔
      ∃ rest, (rest, data) ∈ regularFiles e.2 ∧ names = e.1 :: rest := by
  obtain ⟨name, t⟩ := e
  simp only [regularFilesOfEntry, List.mem_map, Prod.mk.injEq, Prod.exists]
  constructor
  · rintro ⟨rest, _, hmem, rfl, rfl⟩
    exact ⟨rest, hmem, rfl⟩
  · rintro ⟨rest, hmem, rfl⟩
    exact ⟨rest, data, hmem, rfl, rfl⟩

/-- Where there are files, the walk asks for names, and only a folder has files under further
ones. -/
theorem isSkipped_of_mem {t : FileTree} {p : List FileName × FileData} (h : p ∈ regularFiles t)
    (name : FileName) : t.isSkipped excluded name =
      (excluded.contains name.text || (!p.1.isEmpty && name.chars.head? == some '.')) := by
  cases t with
  | file data =>
    obtain rfl : p = ([], data) := by simpa [regularFiles] using h
    rfl
  | folder entries =>
    rw [regularFiles, regularFilesIn_eq_flatMap, List.mem_flatMap] at h
    obtain ⟨e, -, he⟩ := h
    obtain ⟨rest, -, hnames⟩ := mem_regularFilesOfEntry.1 he
    rw [hnames]
    rfl
  | _ => simp [regularFiles] at h

/-- What the walk asks of one entry and what it asks below make up what is asked of all names. -/
theorem eligible_cons_iff {t : FileTree} {p : List FileName × FileData} (h : p ∈ regularFiles t)
    (name : FileName) : Eligible excluded (name :: p.1) ↔
      t.isSkipped excluded name = false ∧ Eligible excluded p.1 := by
  rw [isSkipped_of_mem h name]
  cases hnames : p.1 with
  | nil => simp [Eligible]
  | cons next rest =>
    simp only [Eligible, List.forall_mem_cons, List.dropLast_cons_cons, List.isEmpty_cons,
      Bool.not_false, Bool.true_and, Bool.or_eq_false_iff, List.contains_eq_mem,
      decide_eq_false_iff_not, beq_eq_false_iff_ne]
    tauto

/-! ### The walk -/

namespace Visit

def file? : Visit → Option (List FileName × FileData)
  | .file names data => some (names, data)
  | .blocked .. => none

theorem file?_below (name : FileName) (v : Visit) :
    (v.below name).file? = v.file?.map fun p => (name :: p.1, p.2) := by
  cases v <;> rfl

end Visit

mutual

/-- Leaving out entries on the way finds the files that are eligible by their names. -/
theorem files_walk (excluded : List String) : (t : FileTree) →
    (walk excluded t).filterMap Visit.file? =
      (regularFiles t).filter fun p => Eligible excluded p.1
  | .file data => by simp [walk, regularFiles, Eligible, Visit.file?]
  | .folder entries => by rw [walk, regularFiles, files_walkIn excluded entries]
  | .link _ | .closed _ | .unknown _ | .lost _ => by simp [walk, regularFiles, Visit.file?]

theorem files_walkEntry (excluded : List String) : (e : FileName × FileTree) →
    (walkEntry excluded e).filterMap Visit.file? =
      (regularFilesOfEntry e).filter fun p => Eligible excluded p.1
  | (name, t) => by
    have hcons : Visit.file? ∘ Visit.below name =
        fun v => v.file?.map fun p => (name :: p.1, p.2) := funext (Visit.file?_below name)
    rw [walkEntry, regularFilesOfEntry, List.filter_map]
    split
    · rename_i hskipped
      rw [List.filterMap_nil, eq_comm, List.map_eq_nil_iff, List.filter_eq_nil_iff]
      intro p hp
      simp [eligible_cons_iff hp, hskipped]
    · rename_i hkept
      rw [List.filterMap_map, hcons, ← List.map_filterMap, files_walk excluded t]
      refine congrArg _ (List.filter_congr fun p hp => ?_)
      simp [eligible_cons_iff hp, hkept]

theorem files_walkIn (excluded : List String) : (entries : List (FileName × FileTree)) →
    (walkIn excluded entries).filterMap Visit.file? =
      (regularFilesIn entries).filter fun p => Eligible excluded p.1
  | [] => rfl
  | entry :: rest => by
    rw [walkIn, regularFilesIn, List.filterMap_append, List.filter_append,
      files_walkEntry excluded entry, files_walkIn excluded rest]

end

/-! ### Files and the names that lead to them -/

theorem lookup_eq_some_iff_mem {entries : List (FileName × FileTree)}
    (h : (entries.map Prod.fst).Nodup) {name : FileName} {t : FileTree} :
    entries.lookup name = some t ↔ (name, t) ∈ entries := by
  rw [List.lookup_eq_some_iff]
  constructor
  · rintro ⟨before, after, rfl, -⟩
    simp
  · intro hmem
    obtain ⟨before, after, rfl⟩ := List.append_of_mem hmem
    refine ⟨before, after, rfl, fun p hp => ?_⟩
    rw [List.map_append, List.map_cons, List.nodup_append] at h
    have hne := h.2.2 p.1 (List.mem_map_of_mem hp) name (by simp)
    simpa using hne.symm

/-- A file is found under exactly the names that lead to it. -/
theorem WellNamed.mem_regularFiles {t : FileTree} (h : t.WellNamed) {names : List FileName}
    {data : FileData} : (names, data) ∈ regularFiles t ↔ t.at? names = some (.file data) := by
  induction h generalizing names data with
  | @leaf t hleaf =>
    cases t with
    | folder entries => exact absurd rfl (hleaf entries)
    | _ => cases names <;> simp [regularFiles, at?, child?, eq_comm]
  | @folder entries distinct plain below ih =>
    rw [regularFiles, regularFilesIn_eq_flatMap, List.mem_flatMap]
    cases names with
    | nil =>
      constructor
      · rintro ⟨e, -, he⟩
        obtain ⟨rest, -, hnil⟩ := mem_regularFilesOfEntry.1 he
        cases hnil
      · intro hfile
        simp [at?] at hfile
    | cons name rest =>
      simp only [at?, child?, Option.bind_eq_some_iff, lookup_eq_some_iff_mem distinct]
      constructor
      · rintro ⟨⟨_, t⟩, hmem, he⟩
        obtain ⟨_, hrest, heq⟩ := mem_regularFilesOfEntry.1 he
        obtain ⟨rfl, rfl⟩ := List.cons.inj heq
        exact ⟨t, hmem, (ih _ hmem).1 hrest⟩
      · rintro ⟨t, hmem, hfile⟩
        exact ⟨(name, t), hmem, mem_regularFilesOfEntry.2 ⟨rest, (ih _ hmem).2 hfile, rfl⟩⟩

/-- No two files of a tree lie under the same names. -/
theorem WellNamed.nodup_regularFiles {t : FileTree} (h : t.WellNamed) :
    ((regularFiles t).map Prod.fst).Nodup := by
  induction h with
  | @leaf t hleaf =>
    cases t with
    | folder entries => exact absurd rfl (hleaf entries)
    | _ => simp [regularFiles]
  | @folder entries distinct plain below ih =>
    rw [regularFiles, regularFilesIn_eq_flatMap, List.map_flatMap, List.nodup_flatMap]
    constructor
    · rintro ⟨name, t⟩ he
      rw [regularFilesOfEntry, List.map_map]
      have hcons : Prod.fst ∘ (fun p : List FileName × FileData => (name :: p.1, p.2)) =
          (name :: ·) ∘ Prod.fst := rfl
      rw [hcons, ← List.map_map]
      exact (ih _ he).map fun _ _ hnames => (List.cons.inj hnames).2
    · -- files below different entries differ in their first name
      refine (List.pairwise_map.1 distinct).imp fun {e f} hne => ?_
      simp only [Function.onFun, List.disjoint_left, List.mem_map, Prod.exists, exists_and_right,
        exists_eq_right]
      rintro names ⟨data, he⟩ ⟨_, hf⟩
      obtain ⟨rest, -, rfl⟩ := mem_regularFilesOfEntry.1 he
      obtain ⟨_, -, hnames⟩ := mem_regularFilesOfEntry.1 hf
      exact hne (List.cons.inj hnames).1

theorem WellNamed.plain_of_at? {t found : FileTree} (h : t.WellNamed) {names : List FileName}
    (hfound : t.at? names = some found) : ∀ name ∈ names, '/' ∉ name.chars := by
  induction h generalizing names with
  | @leaf t hleaf =>
    cases names with
    | nil => simp
    | cons name rest =>
      cases t with
      | folder entries => exact absurd rfl (hleaf entries)
      | _ => simp [at?, child?] at hfound
  | @folder entries distinct plain below ih =>
    cases names with
    | nil => simp
    | cons name rest =>
      simp only [at?, child?, Option.bind_eq_some_iff, lookup_eq_some_iff_mem distinct] at hfound
      obtain ⟨t, hmem, hrest⟩ := hfound
      exact List.forall_mem_cons.2
        ⟨FileName.slash_notMem_chars (plain _ hmem), ih _ hmem hrest⟩

/-! ### Paths -/

/-- The names as they are shown, cut at backslashes. -/
def segments (names : List FileName) : List (List Char) :=
  names.flatMap fun name => name.chars.splitOn '\\'

theorem segments_cons (name : FileName) (names : List FileName) :
    segments (name :: names) = name.chars.splitOn '\\' ++ segments names :=
  rfl

theorem segments_of_no_backslash {names : List FileName} (h : ∀ name ∈ names, '\\' ∉ name.chars) :
    segments names = names.map FileName.chars := by
  induction names with
  | nil => rfl
  | cons name names ih =>
    have hname := List.splitOn_eq_singleton (h name (by simp))
    rw [segments_cons, hname, ih fun n hn => h n (by simp [hn]), List.map_cons,
      List.singleton_append]

/-- Names that are text without backslashes are told apart by their segments. -/
theorem eq_of_segments_eq {names others : List FileName}
    (hnames : ∀ name ∈ names, name.IsText ∧ '\\' ∉ name.chars)
    (hothers : ∀ name ∈ others, name.IsText ∧ '\\' ∉ name.chars)
    (h : segments names = segments others) : names = others := by
  rw [segments_of_no_backslash fun n hn => (hnames n hn).2,
    segments_of_no_backslash fun n hn => (hothers n hn).2] at h
  induction names generalizing others with
  | nil => cases others with
    | nil => rfl
    | cons other others => cases h
  | cons name names ih =>
    cases others with
    | nil => cases h
    | cons other others =>
      rw [List.forall_mem_cons] at hnames hothers
      obtain ⟨hhead, htail⟩ := List.cons.inj h
      rw [hnames.1.1.eq_of_chars hothers.1.1 hhead, ih hnames.2 hothers.2 htail]

theorem splitOn_map_asDivider {cs : List Char} (h : '/' ∉ cs) :
    (cs.map asDivider).splitOn '/' = cs.splitOn '\\' := by
  induction cs with
  | nil => rfl
  | cons c cs ih =>
    rw [List.mem_cons, not_or] at h
    rw [List.map_cons, List.splitOn_cons_eq_if_modifyHead, List.splitOn_cons_eq_if_modifyHead,
      ih h.2]
    by_cases hc : c = '\\'
    · simp [asDivider, hc]
    · have hdivider : asDivider c = c := by simp [asDivider, hc]
      rw [hdivider, if_neg (by simpa using Ne.symm h.1), if_neg (by simpa using hc)]

theorem joinNames_cons_cons (name next : FileName) (names : List FileName) :
    joinNames (name :: next :: names) = name.bytes ++ 0x2F :: joinNames (next :: names) := by
  simp [joinNames, List.intercalate]

/-- A slash ends every character in front of it, so that each name is shown by itself. -/
theorem toList_relativePath_cons_cons (name next : FileName) (names : List FileName) :
    (relativePath (name :: next :: names)).toList =
      name.chars.map asDivider ++ '/' :: (relativePath (next :: names)).toList := by
  rw [relativePath, relativePath, String.toList_ofList, String.toList_ofList, joinNames_cons_cons,
    Text.Utf8.decode_append_ascii (by decide), List.map_append, List.map_cons]
  rfl

theorem toList_relativePath_singleton (name : FileName) :
    (relativePath [name]).toList = name.chars.map asDivider := by
  simp [relativePath, joinNames, List.intercalate, FileName.chars]

/-- A path cut at its dividers. -/
theorem splitOn_relativePath {names : List FileName} (hne : names ≠ [])
    (h : ∀ name ∈ names, '/' ∉ name.chars) :
    (relativePath names).toList.splitOn '/' = segments names := by
  induction names with
  | nil => exact absurd rfl hne
  | cons name names ih =>
    have hname := splitOn_map_asDivider (h name (by simp))
    cases names with
    | nil => simpa [segments, toList_relativePath_singleton] using hname
    | cons next names =>
      rw [toList_relativePath_cons_cons, List.splitOn_append_cons_self, hname,
        ih (by simp) fun n hn => h n (by simp [hn]), segments_cons name]

theorem relativePath_eq_iff {names others : List FileName} (hnames : names ≠ [])
    (hothers : others ≠ []) (h : ∀ name ∈ names, '/' ∉ name.chars)
    (h' : ∀ name ∈ others, '/' ∉ name.chars) :
    relativePath names = relativePath others ↔ segments names = segments others := by
  rw [← splitOn_relativePath hnames h, ← splitOn_relativePath hothers h']
  constructor
  · intro heq
    rw [heq]
  · intro heq
    have hjoined := congrArg (['/'].intercalate ·) heq
    simp only [List.intercalate_splitOn] at hjoined
    exact String.toList_inj.1 hjoined

/-! ### Listings -/

/-- What a listing has to say of a file: a record, or a warning if the size is not known. -/
def account (root : String) (p : List FileName × FileData) : FoundFile ⊕ Warning :=
  match p.2.size with
  | .ok size => .inl ⟨relativePath p.1, size, p.2.content⟩
  | .error fault => .inr (.sizeUnknown (relativePath p.1) ⟨some (placeFrom root p.1), fault⟩)

/-- The files of a folder that a survey looks at, under the names that lead to them. -/
def eligibleFiles (excluded : List String) (entries : List (FileName × FileTree)) :
    List (List FileName × FileData) :=
  (regularFilesIn entries).filter fun p => Eligible excluded p.1

theorem Visit.found?_eq (root : String) (v : Visit) :
    v.found? = v.file?.bind fun p => (account root p).getLeft? := by
  cases v with
  | file names data => obtain ⟨_ | _, content⟩ := data <;> rfl
  | blocked names fault => rfl

theorem files_listing_perm (root : String) (excluded : List String)
    (entries : List (FileName × FileTree)) :
    (listing root excluded entries).files.Perm
      ((eligibleFiles excluded entries).filterMap fun p => (account root p).getLeft?) := by
  refine (List.mergeSort_perm _ _).trans (List.Perm.of_eq ?_)
  rw [eligibleFiles, ← files_walkIn, List.filterMap_filterMap]
  exact congrArg (List.filterMap · _) (funext (Visit.found?_eq root))

/-- The names lead to a file that is listed. -/
def Listed (excluded : List String) (t : FileTree) (names : List FileName) : Prop :=
  Eligible excluded names ∧ ∃ size content, t.at? names = some (.file ⟨.ok size, content⟩)

/-- The names of the files that are listed, as the walk finds them. -/
def listedNames (excluded : List String) (entries : List (FileName × FileTree)) :
    List (List FileName) :=
  ((eligibleFiles excluded entries).filter fun p => p.2.size.toBool).map Prod.fst

theorem map_path_listing (root : String) (excluded : List String)
    (entries : List (FileName × FileTree)) :
    ((listing root excluded entries).files.map FoundFile.path).Perm
      ((listedNames excluded entries).map relativePath) := by
  refine ((files_listing_perm root excluded entries).map FoundFile.path).trans (List.Perm.of_eq ?_)
  rw [listedNames, List.map_map, List.map_filterMap, ← List.filterMap_eq_filter,
    List.map_filterMap]
  refine List.filterMap_congr fun p _ => ?_
  obtain ⟨names, size, content⟩ := p
  cases size <;> rfl

variable {entries : List (FileName × FileTree)}

theorem WellNamed.mem_listedNames (h : (FileTree.folder entries).WellNamed)
    {names : List FileName} :
    names ∈ listedNames excluded entries ↔ Listed excluded (.folder entries) names := by
  have hfile : ∀ data, (names, data) ∈ regularFilesIn entries ↔
      (FileTree.folder entries).at? names = some (.file data) := fun data => h.mem_regularFiles
  simp only [listedNames, eligibleFiles, List.mem_map, List.mem_filter, decide_eq_true_eq]
  constructor
  · rintro ⟨⟨_, ⟨size, content⟩⟩, ⟨⟨hmem, heligible⟩, hsize⟩, rfl⟩
    cases size with
    | ok size => exact ⟨heligible, size, content, (hfile _).1 hmem⟩
    | error fault => cases hsize
  · rintro ⟨heligible, size, content, hat⟩
    exact ⟨_, ⟨⟨(hfile _).2 hat, heligible⟩, rfl⟩, rfl⟩

theorem WellNamed.nodup_listedNames (h : (FileTree.folder entries).WellNamed) :
    (listedNames excluded entries).Nodup :=
  h.nodup_regularFiles.sublist ((List.filter_sublist.trans List.filter_sublist).map Prod.fst)

theorem Listed.ne_nil {names : List FileName} (h : Listed excluded (.folder entries) names) :
    names ≠ [] := by
  rintro rfl
  obtain ⟨-, size, content, hat⟩ := h
  simp [at?] at hat

theorem WellNamed.plain_of_listed (h : (FileTree.folder entries).WellNamed)
    {names : List FileName} (hlisted : Listed excluded (.folder entries) names) :
    ∀ name ∈ names, '/' ∉ name.chars := by
  obtain ⟨-, size, content, hat⟩ := hlisted
  exact h.plain_of_at? hat

theorem WellNamed.relativePath_eq_iff (h : (FileTree.folder entries).WellNamed)
    {names others : List FileName} (hnames : Listed excluded (.folder entries) names)
    (hothers : Listed excluded (.folder entries) others) :
    relativePath names = relativePath others ↔ segments names = segments others :=
  FileTree.relativePath_eq_iff hnames.ne_nil hothers.ne_nil (h.plain_of_listed hnames)
    (h.plain_of_listed hothers)

variable (excluded) in
/-- The paths of a listing tell its files apart exactly when no two of the files have names that
look the same once these are cut at backslashes. So they do in every tree whose names are text
without backslashes. -/
theorem listing_paths_nodup_iff (root : String) {entries : List (FileName × FileTree)}
    (h : (FileTree.folder entries).WellNamed) :
    let listed := Listed excluded (.folder entries)
    let paths := (listing root excluded entries).files.map FoundFile.path
    (paths.Nodup ↔ ∀ names others, listed names → listed others →
        segments names = segments others → names = others) ∧
      ((∀ names, listed names → ∀ name ∈ names, name.IsText ∧ '\\' ∉ name.chars) →
        paths.Nodup) := by
  intro listed paths
  have hiff : paths.Nodup ↔ ∀ names others, listed names → listed others →
      segments names = segments others → names = others := by
    have hperm := map_path_listing root excluded entries
    rw [hperm.nodup_iff, List.nodup_map_iff_inj_on h.nodup_listedNames]
    constructor
    · intro hpaths names others hnames hothers heq
      exact hpaths names (h.mem_listedNames.2 hnames) others (h.mem_listedNames.2 hothers)
        ((h.relativePath_eq_iff hnames hothers).2 heq)
    · intro hsegments names hnames others hothers heq
      rw [h.mem_listedNames] at hnames hothers
      exact hsegments names others hnames hothers ((h.relativePath_eq_iff hnames hothers).1 heq)
  refine ⟨hiff, fun hplain => hiff.2 fun names others hnames hothers heq => ?_⟩
  exact eq_of_segments_eq (hplain names hnames) (hplain others hothers) heq

/-- A file in a folder, and beside the folder a file with a backslash in its name. -/
def twins : List (FileName × FileTree) :=
  [("a", .folder [("b.py", .ofBytes .empty)]), ("a\\b.py", .ofBytes .empty)]

theorem twins_share_path :
    (FileTree.folder twins).WellNamed ∧
      ¬((listing "/" [] twins).files.map FoundFile.path).Nodup := by
  have hfolder : (FileTree.folder [("b.py", .ofBytes .empty)]).WellNamed :=
    .folder (by simp) (by decide) (by simpa using wellNamed_ofBytes .empty)
  have htwins : (FileTree.folder twins).WellNamed := by
    refine .folder (by decide) (by decide) ?_
    simpa [twins] using ⟨hfolder, wellNamed_ofBytes .empty⟩
  refine ⟨htwins, fun hnodup => ?_⟩
  have hinner : Listed [] (.folder twins) ["a", "b.py"] := ⟨by decide, _, _, rfl⟩
  have houter : Listed [] (.folder twins) ["a\\b.py"] := ⟨by decide, _, _, rfl⟩
  have hsame := (listing_paths_nodup_iff [] "/" htwins).1.1 hnodup _ _ hinner houter (by decide)
  simp at hsame

end FileTree

end CodeSurvey
