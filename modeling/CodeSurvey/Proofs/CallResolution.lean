import CodeSurvey.Proofs.Search
import CodeSurvey.Proofs.SymbolTable
import Mathlib.Data.List.Nodup

/-!
# What a call means

Within the file of the caller a function of the caller's own type comes first, then one without a
type, then any other one, each time the first in the order of the text. Only where the file has no
function of that name does a call leave it, for the first file in the order of paths that has one.
-/
namespace CodeSurvey

/-- The functions of a file in the order of the text, as they are known in the tree. -/
def ExtractedFile.definitions (f : ExtractedFile) : List Definition :=
  f.functions.map (Definition.ofDeclaration f.path)

def ExtractedFile.Defines (f : ExtractedFile) (name : String) : Prop :=
  ∃ d ∈ f.definitions, d.simpleName = name

instance (f : ExtractedFile) (name : String) : Decidable (f.Defines name) :=
  inferInstanceAs (Decidable (∃ d ∈ f.definitions, d.simpleName = name))

/-- Which of the definitions in a file a name stands for inside a function whose enclosing type is
`owner`. -/
inductive Preferred (owner : Option String) (name : String) (ds : List Definition) :
    Definition → Prop
  | ownType {d : Definition} (h : FirstWith (fun e => e.simpleName = name ∧ e.owner = owner) ds d) :
      Preferred owner name ds d
  | noType {d : Definition} (hown : ∀ e ∈ ds, ¬(e.simpleName = name ∧ e.owner = owner))
      (h : FirstWith (fun e => e.simpleName = name ∧ e.owner = none) ds d) :
        Preferred owner name ds d
  | anyType {d : Definition} (hown : ∀ e ∈ ds, ¬(e.simpleName = name ∧ e.owner = owner))
      (hnone : ∀ e ∈ ds, ¬(e.simpleName = name ∧ e.owner = none))
      (h : FirstWith (fun e => e.simpleName = name) ds d) : Preferred owner name ds d

/-- Which definition of the tree a name stands for inside a function of the file at `path`. -/
inductive StandsFor (files : List ExtractedFile) (path : String) (owner : Option String)
    (name : String) :
    Definition → Prop
  | here {f : ExtractedFile} {d : Definition} (hf : f ∈ files) (hpath : f.path = path)
      (h : Preferred owner name f.definitions d) : StandsFor files path owner name d
  | elsewhere {f : ExtractedFile} {d : Definition}
      (hhere : ∀ g ∈ files, g.path = path → ¬g.Defines name)
      (hf : f ∈ files) (hleast : ∀ g ∈ files, g.Defines name → ¬g.path < f.path)
      (h : FirstWith (fun e => e.simpleName = name) f.definitions d) :
        StandsFor files path owner name d

theorem Preferred.mem {owner : Option String} {name : String} {ds : List Definition}
    {d : Definition} (h : Preferred owner name ds d) : d ∈ ds ∧ d.simpleName = name := by
  cases h with
  | ownType h => exact ⟨h.mem, h.holds.1⟩
  | noType _ h => exact ⟨h.mem, h.holds.1⟩
  | anyType _ _ h => exact ⟨h.mem, h.holds⟩

namespace SymbolTable

variable {t : SymbolTable} {files : List ExtractedFile} {path name : String} {caller d : Definition}

/-! ### In any table -/

theorem resolveCall?_eq_some_iff :
    t.resolveCall? path caller name = some d ↔ Preferred caller.owner name (t.inFile path) d ∨
      (∀ e ∈ t.inFile path, e.simpleName ≠ name) ∧ (t.lookup name).head? = some d := by
  have hown : ∀ e : Definition,
      decide ((e.simpleName == name) = true ∧ (e.owner == caller.owner) = true) = true ↔
        e.simpleName = name ∧ e.owner = caller.owner := by simp
  have hnone : ∀ e : Definition,
      decide ((e.simpleName == name) = true ∧ (e.owner == none) = true) = true ↔
        e.simpleName = name ∧ e.owner = none := by simp
  have hany : ∀ e : Definition, (e.simpleName == name) = true ↔ e.simpleName = name := by simp
  simp only [resolveCall?, lookupInFile, Option.or_eq_some_iff, Option.or_eq_none_iff,
    List.find?_filter, List.head?_filter, find?_eq_some_iff_firstWith hown,
    find?_eq_some_iff_firstWith hnone, find?_eq_some_iff_firstWith hany, find?_eq_none_iff hown,
    find?_eq_none_iff hnone, find?_eq_none_iff hany]
  constructor
  · rintro ((h | ⟨hown, h | ⟨hnone, h⟩⟩) | ⟨⟨-, -, habsent⟩, h⟩)
    · exact .inl (.ownType h)
    · exact .inl (.noType hown h)
    · exact .inl (.anyType hown hnone h)
    · exact .inr ⟨habsent, h⟩
  · rintro (h | ⟨habsent, h⟩)
    · cases h with
      | ownType h => exact .inl (.inl h)
      | noType hown h => exact .inl (.inr ⟨hown, .inl h⟩)
      | anyType hown hnone h => exact .inl (.inr ⟨hown, .inr ⟨hnone, h⟩⟩)
    · exact .inr ⟨⟨fun e he h => habsent e he h.1, fun e he h => habsent e he h.1, habsent⟩, h⟩

/-! ### In a table of files -/

theorem map_declaredFunctions (files : List ExtractedFile) :
    ((declaredFunctions files).map fun p => Definition.ofDeclaration p.1 p.2) =
      files.flatMap ExtractedFile.definitions := by
  simp only [declaredFunctions, List.map_flatMap, List.map_map]
  rfl

theorem head?_lookup_ofFiles (files : List ExtractedFile) (name : String) :
    ((ofFiles files).lookup name).head? =
      files.findSome? fun f => f.definitions.find? (·.simpleName = name) := by
  rw [lookup_ofFiles, ← List.find?_flatMap, ← map_declaredFunctions, ← List.head?_filter,
    List.filter_map]
  rfl

theorem inFile_ofFiles_of_not_mem (h : ∀ f ∈ files, f.path ≠ path) :
    (ofFiles files).inFile path = [] := by
  rw [inFile_ofFiles, List.map_eq_nil_iff, List.filter_eq_nil_iff]
  intro p hp hpath
  obtain ⟨f, hf, hfile, -⟩ := mem_declaredFunctions.1 hp
  exact h f hf (hfile.trans (of_decide_eq_true hpath))

theorem nodup_paths (hsorted : (files.map ExtractedFile.path).Pairwise (· < ·)) :
    (files.map ExtractedFile.path).Nodup := by
  refine hsorted.imp ?_
  intro a b hlt heq
  exact String.lt_irrefl b (heq ▸ hlt)

/-- Where files come in the order of their paths, the first one that has a function of the name is
the one with the least path. -/
theorem head?_lookup_eq_some_iff (hsorted : (files.map ExtractedFile.path).Pairwise (· < ·)) :
    ((ofFiles files).lookup name).head? = some d ↔
      ∃ f ∈ files, (∀ g ∈ files, g.Defines name → ¬g.path < f.path) ∧
      FirstWith (fun e => e.simpleName = name) f.definitions d := by
  have hname : ∀ e : Definition, decide (e.simpleName = name) = true ↔
      e.simpleName = name := by simp
  rw [List.pairwise_map] at hsorted
  rw [head?_lookup_ofFiles, List.findSome?_eq_some_iff]
  constructor
  · rintro ⟨before, f, after, rfl, hfirst, hbefore⟩
    refine ⟨f, by simp, ?_, (find?_eq_some_iff_firstWith hname).1 hfirst⟩
    rintro g hg ⟨e, he, hename⟩ hlt
    obtain ⟨-, hafter, -⟩ := List.pairwise_append.1 hsorted
    rcases List.mem_append.1 hg with hg | hg
    · exact (find?_eq_none_iff hname).1 (hbefore g hg) e he hename
    · rcases List.mem_cons.1 hg with rfl | hg
      · exact String.lt_irrefl _ hlt
      · exact String.lt_irrefl _ (String.lt_trans hlt ((List.pairwise_cons.1 hafter).1 g hg))
  · rintro ⟨f, hf, hleast, hfirst⟩
    obtain ⟨before, after, rfl⟩ := List.append_of_mem hf
    refine ⟨before, f, after, rfl, (find?_eq_some_iff_firstWith hname).2 hfirst, ?_⟩
    intro g hg
    refine (find?_eq_none_iff hname).2 ?_
    intro e he hename
    obtain ⟨-, -, hbefore⟩ := List.pairwise_append.1 hsorted
    exact hleast g (by simp [hg]) ⟨e, he, hename⟩ (hbefore g hg f (by simp))

theorem resolveCall?_eq_some_iff_standsFor
    (hsorted : (files.map ExtractedFile.path).Pairwise (· < ·)) :
    (ofFiles files).resolveCall? path caller name = some d ↔
    StandsFor files path caller.owner name d := by
  have hinFile : ∀ f ∈ files, (ofFiles files).inFile f.path = f.definitions := fun f hf =>
    inFile_ofFiles_of_nodup (nodup_paths hsorted) hf
  rw [resolveCall?_eq_some_iff, head?_lookup_eq_some_iff hsorted]
  constructor
  · rintro (h | ⟨habsent, f, hf, hleast, h⟩)
    · by_cases hpath : ∃ f ∈ files, f.path = path
      · obtain ⟨f, hf, rfl⟩ := hpath
        exact .here hf rfl (hinFile f hf ▸ h)
      · rw [inFile_ofFiles_of_not_mem fun f hf heq => hpath ⟨f, hf, heq⟩] at h
        exact absurd h.mem.1 List.not_mem_nil
    · refine .elsewhere ?_ hf hleast h
      rintro g hg rfl ⟨e, he, hname⟩
      exact habsent e (hinFile g hg ▸ he) hname
  · intro h
    cases h with
    | here hf hpath h =>
      subst hpath
      exact .inl (hinFile _ hf ▸ h)
    | @elsewhere f _ hhere hf hleast h =>
      refine .inr ⟨?_, f, hf, hleast, h⟩
      intro e he hname
      by_cases hpath : ∃ g ∈ files, g.path = path
      · obtain ⟨g, hg, rfl⟩ := hpath
        exact hhere g hg rfl ⟨e, hinFile g hg ▸ he, hname⟩
      · rw [inFile_ofFiles_of_not_mem fun g hg heq => hpath ⟨g, hg, heq⟩] at he
        exact absurd he List.not_mem_nil

theorem resolveCall?_eq_none_iff (hsorted : (files.map ExtractedFile.path).Pairwise (· < ·)) :
    (ofFiles files).resolveCall? path caller name = none ↔ ∀ f ∈ files, ¬f.Defines name := by
  constructor
  · rintro h f hf ⟨e, he, hname⟩
    rw [resolveCall?, Option.or_eq_none_iff, head?_lookup_ofFiles, List.findSome?_eq_none_iff] at h
    exact List.find?_eq_none.1 (h.2 f hf) e he (by simpa using hname)
  · intro h
    refine Option.eq_none_iff_forall_ne_some.2 ?_
    intro d hd
    cases (resolveCall?_eq_some_iff_standsFor hsorted).1 hd with
    | here hf _ hd => exact h _ hf ⟨d, hd.mem⟩
    | elsewhere _ hf _ hd => exact h _ hf ⟨d, hd.mem, hd.holds⟩

/-- A call means nothing just if no function of the tree has its name, and else the function that
`StandsFor` tells. It stays in the file of the caller if that has a function of the name. -/
theorem resolveCall?_precedence (files : List ExtractedFile)
    (hsorted : (files.map ExtractedFile.path).Pairwise (· < ·)) (path : String)
    (caller : Definition) (name : String) :
    ((ofFiles files).resolveCall? path caller name = none ↔ ∀ f ∈ files, ¬f.Defines name) ∧
    (∀ d, (ofFiles files).resolveCall? path caller name = some d ↔
      StandsFor files path caller.owner name d) ∧
    (∀ d, (ofFiles files).resolveCall? path caller name = some d → d.simpleName = name) ∧
    ∀ f ∈ files, f.path = path → f.Defines name →
      ∃ d ∈ f.definitions, (ofFiles files).resolveCall? path caller name = some d := by
  have hnone : (ofFiles files).resolveCall? path caller name = none ↔
    ∀ f ∈ files, ¬f.Defines name :=
    resolveCall?_eq_none_iff hsorted
  refine ⟨hnone, fun d => resolveCall?_eq_some_iff_standsFor hsorted, ?_, ?_⟩
  · intro d hd
    cases (resolveCall?_eq_some_iff_standsFor hsorted).1 hd with
    | here _ _ hd => exact hd.mem.2
    | elsewhere _ _ _ hd => exact hd.holds
  · intro f hf hpath hdefines
    cases hcall : (ofFiles files).resolveCall? path caller name with
    | none => exact absurd hdefines (hnone.1 hcall f hf)
    | some d =>
      refine ⟨d, ?_, rfl⟩
      cases (resolveCall?_eq_some_iff_standsFor hsorted).1 hcall with
      | here hg hgpath hd =>
        obtain rfl := List.inj_on_of_nodup_map (nodup_paths hsorted) hg hf (hgpath.trans hpath.symm)
        exact hd.mem.1
      | elsewhere hhere _ _ _ => exact absurd hdefines (hhere f hf hpath)

/-- A file whose functions have the names. -/
def namesIn (path : String) (names : List String) : ExtractedFile :=
  { source := ⟨path, none, [], "", false⟩
    extraction := { (default : Extraction) with functions := names.map fun name =>
      { (default : Declaration) with name } }
    patternVersion := 1
    fromCache := false }

/-- Two files with a function of one name around one with a method that has the name of a
function. -/
def storeFiles : List ExtractedFile :=
  [namesIn "a.py" ["run"], namesIn "m.py" ["save", "Store.save", "Store.flush"],
    namesIn "z.py" ["run"]]

def flush : Definition :=
  .ofDeclaration "m.py" { (default : Declaration) with name := "Store.flush" }

/-- A method calls the one of its own type, not the function in front of it, and where it calls what
its file has not, the first of the two files has it. -/
theorem resolveCall?_own_type_first :
    (storeFiles.map ExtractedFile.path).Pairwise (· < ·) ∧
      ((ofFiles storeFiles).resolveCall? "m.py" flush "save").map Definition.id =
        some "m.py::Store.save" ∧
      ((ofFiles storeFiles).resolveCall? "m.py" flush "run").map Definition.id = some "a.py::run" ∧
      (ofFiles storeFiles).resolveCall? "m.py" flush "gone" = none := by
  have hsorted : (storeFiles.map ExtractedFile.path).Pairwise (· < ·) := by decide +kernel
  obtain ⟨-, hsave, -⟩ := resolveCall?_precedence storeFiles hsorted "m.py" flush "save"
  obtain ⟨-, hrun, -⟩ := resolveCall?_precedence storeFiles hsorted "m.py" flush "run"
  obtain ⟨hgone, -⟩ := resolveCall?_precedence storeFiles hsorted "m.py" flush "gone"
  have hown : StandsFor storeFiles "m.py" flush.owner "save"
      (.ofDeclaration "m.py" { (default : Declaration) with name := "Store.save" }) := by
    refine .here (List.mem_cons_of_mem _ List.mem_cons_self) rfl (.ownType ⟨[_], [_], rfl, ?_, ?_⟩)
    · decide +kernel
    · decide +kernel
  have hfirst : StandsFor storeFiles "m.py" flush.owner "run"
      (.ofDeclaration "a.py" { (default : Declaration) with name := "run" }) := by
    refine .elsewhere ?_ List.mem_cons_self ?_ ⟨[], [], rfl, ?_, by simp⟩
    · decide +kernel
    · decide +kernel
    · decide +kernel
  refine ⟨hsorted, ?_, ?_, hgone.2 (by decide +kernel)⟩
  · rw [(hsave _).2 hown]
    rfl
  · rw [(hrun _).2 hfirst]
    rfl

end SymbolTable

end CodeSurvey
