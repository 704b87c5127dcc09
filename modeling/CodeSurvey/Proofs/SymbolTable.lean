import CodeSurvey.Proofs.Table
import CodeSurvey.SourceFile
import CodeSurvey.SymbolTable

/-!
# What a symbol table holds

The two indexes list what was added for a file or under a simple name, in the order of addition. A
call is resolved to one of these definitions.
-/
namespace CodeSurvey

/-- Every function of the files, with the path of its file. -/
def declaredFunctions (files : List ExtractedFile) : List (String × Declaration) :=
  files.flatMap fun f => f.functions.map fun d => (f.path, d)

theorem mem_declaredFunctions {files : List ExtractedFile} {p : String × Declaration} :
    p ∈ declaredFunctions files ↔ ∃ f ∈ files, f.path = p.1 ∧ p.2 ∈ f.functions := by
  obtain ⟨path, d⟩ := p
  simp only [declaredFunctions, List.mem_flatMap, List.mem_map, Prod.mk.injEq]
  constructor
  · rintro ⟨f, hf, d, hd, rfl, rfl⟩
    exact ⟨f, hf, rfl, hd⟩
  · rintro ⟨f, hf, rfl, hd⟩
    exact ⟨f, hf, d, hd, rfl, rfl⟩

/-- The names in the whole tree of all functions, one for each. -/
def symbolIds (files : List ExtractedFile) : List String :=
  (declaredFunctions files).map fun p => Definition.idOf p.1 p.2.name

theorem symbolIds_eq (files : List ExtractedFile) :
    symbolIds files = files.flatMap fun f => f.functions.map fun d =>
      Definition.idOf f.path d.name := by
  simp only [symbolIds, declaredFunctions, List.map_flatMap, List.map_map]
  rfl

theorem mem_symbolIds {files : List ExtractedFile} {id : String} :
    id ∈ symbolIds files ↔ ∃ f ∈ files, ∃ d ∈ f.functions, id = Definition.idOf f.path d.name := by
  rw [symbolIds, List.mem_map]
  constructor
  · rintro ⟨p, hp, rfl⟩
    obtain ⟨f, hf, hpath, hd⟩ := mem_declaredFunctions.1 hp
    exact ⟨f, hf, p.2, hd, by rw [hpath]⟩
  · rintro ⟨f, hf, d, hd, rfl⟩
    exact ⟨(f.path, d), mem_declaredFunctions.2 ⟨f, hf, rfl, hd⟩, rfl⟩

/-- How many functions the files have. -/
def functionCount (files : List ExtractedFile) : Nat :=
  files.foldr (fun f n => f.functions.length + n) 0

theorem length_declaredFunctions (files : List ExtractedFile) :
    (declaredFunctions files).length = functionCount files := by
  induction files with
  | nil => rfl
  | cons f files ih =>
    rw [declaredFunctions, List.flatMap_cons, List.length_append, List.length_map]
    exact congrArg (f.functions.length + ·) ih

theorem length_symbolIds (files : List ExtractedFile) :
    (symbolIds files).length = functionCount files := by
  rw [symbolIds, List.length_map, length_declaredFunctions]

/-- A table with one entry for each id has as many entries as there are functions. -/
theorem length_of_keys_perm {α : Type} {files : List ExtractedFile} {t : Table α}
    (h : t.keys.Perm (symbolIds files)) : t.length = functionCount files := by
  rw [← length_symbolIds, ← h.length_eq, Table.keys, List.length_map]

/-- The functions under a path are those of its file, where no other file has that path. -/
theorem filter_declaredFunctions {files : List ExtractedFile}
    (h : (files.map ExtractedFile.path).Nodup) {f : ExtractedFile} (hf : f ∈ files) :
    (declaredFunctions files).filter (·.1 = f.path) = f.functions.map fun d => (f.path, d) := by
  have hother : ∀ g : ExtractedFile, g.path ≠ f.path →
      (g.functions.map fun d => (g.path, d)).filter (·.1 = f.path) = [] := by
    intro g hg
    simp [List.filter_eq_nil_iff, hg]
  have hself : (f.functions.map fun d => (f.path, d)).filter (·.1 = f.path) =
      f.functions.map fun d => (f.path, d) := by
    simp [List.filter_eq_self]
  induction files with
  | nil => exact absurd hf List.not_mem_nil
  | cons g files ih =>
    obtain ⟨hg, hrest⟩ := List.nodup_cons.1 h
    rw [declaredFunctions, List.flatMap_cons, List.filter_append]
    rcases List.mem_cons.1 hf with rfl | hf
    · have hnone : (declaredFunctions files).filter (·.1 = f.path) = [] := by
        refine List.filter_eq_nil_iff.2 ?_
        intro p hp heq
        obtain ⟨g, hmem, hpath, -⟩ := mem_declaredFunctions.1 hp
        exact hg (List.mem_map.2 ⟨g, hmem, hpath.trans (of_decide_eq_true heq)⟩)
      rw [hself]
      exact (congrArg (_ ++ ·) hnone).trans (List.append_nil _)
    · have hne : g.path ≠ f.path := fun heq => hg (heq ▸ List.mem_map_of_mem hf)
      rw [hother g hne]
      exact ih hrest hf

namespace SymbolTable

/-- The table of the functions of files. -/
def ofFiles (files : List ExtractedFile) : SymbolTable :=
  files.foldl (fun t f => t.addFile f.path f.functions) .empty

theorem ofFiles_eq (files : List ExtractedFile) :
    ofFiles files = (declaredFunctions files).foldl (fun t p => t.add p.1 p.2) .empty := by
  rw [ofFiles, declaredFunctions, List.foldl_flatMap]
  simp only [List.foldl_map]
  rfl

theorem inFile_add (t : SymbolTable) (file path : String) (d : Declaration) :
    (t.add file d).inFile path =
      t.inFile path ++ if file = path then [Definition.ofDeclaration file d] else [] := by
  rw [inFile, add, Table.get?_modify, inFile]
  by_cases h : file = path
  · subst h
    simp
  · simp [h, Ne.symm h]

theorem lookup_add (t : SymbolTable) (file name : String) (d : Declaration) :
    (t.add file d).lookup name =
      t.lookup name ++ if d.simpleName = name then [Definition.ofDeclaration file d] else [] := by
  have hname : (Definition.ofDeclaration file d).simpleName = d.simpleName := rfl
  simp only [lookup, add, hname, Table.get?_modify]
  by_cases h : d.simpleName = name
  · subst h
    simp
  · simp [h, Ne.symm h]

theorem inFile_foldl_add (t : SymbolTable) (ps : List (String × Declaration)) (path : String) :
    (ps.foldl (fun t p => t.add p.1 p.2) t).inFile path =
      t.inFile path ++ (ps.filter (·.1 = path)).map fun p => Definition.ofDeclaration p.1 p.2 := by
  induction ps generalizing t with
  | nil => simp
  | cons p ps ih =>
    rw [List.foldl_cons, ih, inFile_add, List.filter_cons, List.append_assoc]
    by_cases h : p.1 = path <;> simp [h]

theorem lookup_foldl_add (t : SymbolTable) (ps : List (String × Declaration)) (name : String) :
    (ps.foldl (fun t p => t.add p.1 p.2) t).lookup name =
      t.lookup name ++ (ps.filter (·.2.simpleName = name)).map fun p =>
        Definition.ofDeclaration p.1 p.2 := by
  induction ps generalizing t with
  | nil => simp
  | cons p ps ih =>
    rw [List.foldl_cons, ih, lookup_add, List.filter_cons, List.append_assoc]
    by_cases h : p.2.simpleName = name <;> simp [h]

theorem inFile_ofFiles (files : List ExtractedFile) (path : String) :
    (ofFiles files).inFile path =
      ((declaredFunctions files).filter (·.1 = path)).map fun p =>
        Definition.ofDeclaration p.1 p.2 := by
  rw [ofFiles_eq, inFile_foldl_add]
  rfl

theorem lookup_ofFiles (files : List ExtractedFile) (name : String) :
    (ofFiles files).lookup name =
      ((declaredFunctions files).filter (·.2.simpleName = name)).map fun p =>
        Definition.ofDeclaration p.1 p.2 := by
  rw [ofFiles_eq, lookup_foldl_add]
  rfl

/-- The table lists the functions of a file as the file does. -/
theorem inFile_ofFiles_of_nodup {files : List ExtractedFile}
    (h : (files.map ExtractedFile.path).Nodup) {f : ExtractedFile} (hf : f ∈ files) :
    (ofFiles files).inFile f.path = f.functions.map (Definition.ofDeclaration f.path) := by
  rw [inFile_ofFiles, filter_declaredFunctions h hf, List.map_map]
  rfl

theorem size_add {t : SymbolTable} (h : t.byFile.Sorted) (file : String) (d : Declaration) :
    (t.add file d).byFile.Sorted ∧ (t.add file d).size = t.size + 1 := by
  refine ⟨h.insert _ _, ?_⟩
  have htotal := h.foldr_insert List.length file
    ((t.byFile.get? file).getD [] ++ [Definition.ofDeclaration file d])
  cases hfile : t.byFile.get? file with
  | none =>
    simp only [hfile, Option.elim_none, Option.getD_none] at htotal
    simpa [size, add, Table.modify, hfile] using htotal
  | some ds =>
    simp only [hfile, Option.elim_some, Option.getD_some, List.length_append,
      List.length_singleton] at htotal
    simp only [size, add, Table.modify, hfile, Option.getD_some]
    omega

theorem size_foldl_add (ps : List (String × Declaration)) {t : SymbolTable} (h : t.byFile.Sorted) :
    (ps.foldl (fun t p => t.add p.1 p.2) t).size = t.size + ps.length := by
  induction ps generalizing t with
  | nil => rfl
  | cons p ps ih =>
    obtain ⟨hsorted, hsize⟩ := size_add h p.1 p.2
    rw [List.foldl_cons, ih hsorted, hsize, List.length_cons]
    omega

/-- The table counts every function, however often a path or a name occurs. -/
theorem size_ofFiles (files : List ExtractedFile) : (ofFiles files).size = functionCount files := by
  have hsorted : empty.byFile.Sorted := List.Pairwise.nil
  rw [ofFiles_eq, size_foldl_add _ hsorted, length_declaredFunctions]
  exact Nat.zero_add _

theorem mem_of_resolveCall? {t : SymbolTable} {file token : String} {caller d : Definition}
    (h : t.resolveCall? file caller token = some d) : d ∈ t.inFile file ∨ d ∈ t.lookup token := by
  have hhere : ∀ {d}, d ∈ t.lookupInFile file token → d ∈ t.inFile file :=
    fun hd => (List.mem_filter.1 hd).1
  simp only [resolveCall?, Option.or_eq_some_iff] at h
  rcases h with (h | ⟨-, h | ⟨-, h⟩⟩) | ⟨-, h⟩
  · exact .inl (hhere (List.mem_of_find?_eq_some h))
  · exact .inl (hhere (List.mem_of_find?_eq_some h))
  · exact .inl (hhere (List.mem_of_head? h))
  · exact .inr (List.mem_of_head? h)

theorem id_mem_of_mem_filter {files : List ExtractedFile} {keep : String × Declaration → Bool}
    {d : Definition} (h : d ∈ ((declaredFunctions files).filter keep).map fun p =>
      Definition.ofDeclaration p.1 p.2) :
    d.id ∈ symbolIds files := by
  obtain ⟨p, hp, rfl⟩ := List.mem_map.1 h
  exact List.mem_map.2 ⟨p, (List.mem_filter.1 hp).1, rfl⟩

theorem id_mem_of_mem_inFile {files : List ExtractedFile} {path : String} {d : Definition}
    (h : d ∈ (ofFiles files).inFile path) : d.id ∈ symbolIds files :=
  id_mem_of_mem_filter (inFile_ofFiles files path ▸ h)

theorem id_mem_of_mem_lookup {files : List ExtractedFile} {name : String} {d : Definition}
    (h : d ∈ (ofFiles files).lookup name) : d.id ∈ symbolIds files :=
  id_mem_of_mem_filter (lookup_ofFiles files name ▸ h)

theorem id_mem_of_resolveCall? {files : List ExtractedFile} {file token : String}
    {caller d : Definition} (h : (ofFiles files).resolveCall? file caller token = some d) :
      d.id ∈ symbolIds files :=
  (mem_of_resolveCall? h).elim id_mem_of_mem_inFile id_mem_of_mem_lookup

/-- The files of the table hold every function, however often a path occurs. -/
theorem mem_flatMap_inFile {files : List ExtractedFile} {id : String} :
    id ∈ files.flatMap (fun f => ((ofFiles files).inFile f.path).map Definition.id) ↔
    id ∈ symbolIds files := by
  simp only [List.mem_flatMap, List.mem_map]
  constructor
  · rintro ⟨f, -, d, hd, rfl⟩
    exact id_mem_of_mem_inFile hd
  · intro hid
    obtain ⟨p, hp, rfl⟩ := List.mem_map.1 hid
    obtain ⟨f, hf, hpath, -⟩ := mem_declaredFunctions.1 hp
    refine ⟨f, hf, Definition.ofDeclaration p.1 p.2, ?_, rfl⟩
    rw [inFile_ofFiles]
    exact List.mem_map_of_mem (List.mem_filter.2 ⟨hp, by simp [hpath]⟩)

end SymbolTable

end CodeSurvey
