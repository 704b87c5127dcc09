import CodeSurvey.Complexity
import CodeSurvey.Proofs.SymbolTable

/-!
# Scores

Every function of a file that a language reads has a score. The summary counts each score once,
under the one risk that it has.
-/
namespace CodeSurvey.Complexity

theorem complexity_ofText (language : Language) (masked : List Char) :
    (ofText language masked).complexity = (ofText language masked).branches + 1 :=
  Nat.add_comm 1 _

theorem exists_of_mem_ofFile {registry : Registry} {f : ExtractedFile} {e : String × Complexity}
    (h : e ∈ ofFile registry f) : ∃ language masked, e.2 = ofText language masked := by
  unfold ofFile at h
  split at h
  · cases h
  · split at h
    · cases h
    · obtain ⟨d, -, rfl⟩ := List.mem_map.1 h
      exact ⟨_, _, rfl⟩

theorem map_fst_ofFile {registry : Registry} {f : ExtractedFile}
    (h : f.functions ≠ [] → (registry.forPath? f.path).isSome) :
    (ofFile registry f).map Prod.fst = f.functions.map fun d => Definition.idOf f.path d.name := by
  unfold ofFile
  split
  next hnone =>
    have hempty : f.functions = [] := Decidable.byContradiction
      fun hne => by simpa [hnone] using h hne
    rw [hempty]
    rfl
  next =>
    split
    next hempty =>
      rw [List.isEmpty_iff.1 hempty]
      rfl
    next => exact List.map_map

namespace Report

theorem complexity_of_mem {registry : Registry} {files : List ExtractedFile}
    {e : String × Complexity} (h : e ∈ (ofFiles registry files).functions) :
      e.2.complexity = e.2.branches + 1 := by
  rcases Table.mem_foldl_insert h with h | h
  · obtain ⟨f, -, hf⟩ := List.mem_flatMap.1 h
    obtain ⟨language, masked, heq⟩ := exists_of_mem_ofFile hf
    rw [heq]
    exact complexity_ofText language masked
  · cases h

/-- Where no id is repeated, every function has a score of its own. -/
theorem keys_ofFiles_perm {registry : Registry} {files : List ExtractedFile}
    (hnodup : (symbolIds files).Nodup)
    (h : ∀ f ∈ files, f.functions ≠ [] → (registry.forPath? f.path).isSome) :
    (ofFiles registry files).functions.keys.Perm (symbolIds files) := by
  have hids : (files.flatMap (ofFile registry)).map Prod.fst = symbolIds files := by
    rw [List.map_flatMap, symbolIds_eq]
    exact congrArg List.flatten (List.map_congr_left fun f hf => map_fst_ofFile (h f hf))
  rw [← hids] at hnodup ⊢
  exact (Table.ofList_perm hnodup).map Prod.fst

theorem withRisk_add (r : Report) :
    r.withRisk .low + r.withRisk .medium + r.withRisk .high = r.functions.length := by
  unfold withRisk
  induction r.functions with
  | nil => rfl
  | cons e functions ih =>
    simp only [List.filter_cons, List.length_cons]
    cases e.2.risk <;> simp <;> omega

end Report

end CodeSurvey.Complexity
