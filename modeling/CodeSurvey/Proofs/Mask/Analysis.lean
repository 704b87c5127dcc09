import CodeSurvey.CallGraph
import CodeSurvey.Complexity
import CodeSurvey.Proofs.Extraction.Identity
import CodeSurvey.Proofs.Mask.Idempotent

/-!
# Analyses of masked text

What identifies the functions of a file, the calls among functions and the scores of functions are
the same for all texts with one masked form. So neither a comment nor the body of a literal has a
part in them.
-/
namespace CodeSurvey

/-- The file with another text and the same functions. -/
def ExtractedFile.withContent (f : ExtractedFile) (content : List Char) : ExtractedFile :=
  { f with source := { f.source with content } }

/-- Whether a file is code of the given language as a whole, unlike the script of a component. -/
def ExtractedFile.IsCode (registry : Registry) (language : Language) (f : ExtractedFile) : Prop :=
  (registry.forPath? f.path).map Registration.language = some language ∧
    TreePath.hasExtension f.path "vue" = false

theorem Language.codeView_of_not_component (language : Language) {path : String}
    (h : TreePath.hasExtension path "vue" = false) (text : List Char) :
      language.codeView path text = text := by
  cases language with
  | javaScript => rw [codeView, JavaScript.codeView, h, if_neg Bool.false_ne_true]
  | python => rfl
  | swift => rfl

theorem ExtractedFile.IsCode.maskedLines_eq {registry : Registry} {language : Language}
    {f : ExtractedFile} (h : f.IsCode registry language) {other : List Char}
    (hmask : mask language.lexis other = mask language.lexis f.source.content) {r : Registration}
    (hr : registry.forPath? f.path = some r) :
    (f.withContent other).maskedLines r.language = f.maskedLines r.language := by
  obtain ⟨hlanguage, hpath⟩ := h
  rw [hr] at hlanguage
  obtain rfl := Option.some.inj hlanguage
  have hother : (f.withContent other).maskedLines r.language =
      Text.pieces (mask r.language.lexis (r.language.codeView f.path other)) := rfl
  rw [hother, maskedLines, Language.codeView_of_not_component _ hpath,
    Language.codeView_of_not_component _ hpath, hmask]

theorem CallGraph.addFile_withContent {registry : Registry} {language : Language}
    {f : ExtractedFile} (h : f.IsCode registry language) {other : List Char}
    (hmask : mask language.lexis other = mask language.lexis f.source.content) (g : CallGraph) :
    g.addFile registry (f.withContent other) = g.addFile registry f := by
  have hpath : (f.withContent other).path = f.path := rfl
  rw [addFile, addFile, hpath]
  cases hr : registry.forPath? f.path with
  | none => rfl
  | some r => simp only [h.maskedLines_eq hmask hr]

theorem CallGraph.ofFiles_withContent {registry : Registry} {language : Language}
    {f : ExtractedFile} (h : f.IsCode registry language) {other : List Char}
    (hmask : mask language.lexis other = mask language.lexis f.source.content)
    (before after : List ExtractedFile) :
    ofFiles registry (before ++ f.withContent other :: after) =
      ofFiles registry (before ++ f :: after) := by
  have hstart : ∀ table : SymbolTable,
      ofTable table (before ++ f.withContent other :: after) =
        ofTable table (before ++ f :: after) := by
    intro table
    simp only [ofTable, List.flatMap_append, List.flatMap_cons]
    rfl
  simp only [ofFiles, hstart, List.foldl_append, List.foldl_cons, addFile_withContent h hmask]
  rfl

theorem Complexity.Report.ofFiles_withContent {registry : Registry} {language : Language}
    {f : ExtractedFile} (h : f.IsCode registry language) {other : List Char}
    (hmask : mask language.lexis other = mask language.lexis f.source.content)
    (before after : List ExtractedFile) :
    ofFiles registry (before ++ f.withContent other :: after) =
      ofFiles registry (before ++ f :: after) := by
  have hfile : ofFile registry (f.withContent other) = ofFile registry f := by
    have hpath : (f.withContent other).path = f.path := rfl
    rw [ofFile, ofFile, hpath]
    cases hr : registry.forPath? f.path with
    | none => rfl
    | some r =>
      simp only [h.maskedLines_eq hmask hr]
      rfl
  simp only [ofFiles, List.flatMap_append, List.flatMap_cons, hfile]

/-- Two texts that no analysis of functions tells apart, as the text of a file among others. -/
structure Language.Alike (language : Language) (text other : List Char) : Prop where
  identities : ∀ path, TreePath.hasExtension path "vue" = false →
    (language.declarations (language.codeView path other)).map Declaration.identity =
      (language.declarations (language.codeView path text)).map Declaration.identity
  calls : ∀ registry before f after, ExtractedFile.IsCode registry language f →
    f.source.content = text →
    CallGraph.ofFiles registry (before ++ f.withContent other :: after) =
      CallGraph.ofFiles registry (before ++ f :: after)
  scores : ∀ registry before f after, ExtractedFile.IsCode registry language f →
    f.source.content = text →
    Complexity.Report.ofFiles registry (before ++ f.withContent other :: after) =
      Complexity.Report.ofFiles registry (before ++ f :: after)

theorem Language.alike_of_mask_eq (language : Language) {text other : List Char}
    (h : mask language.lexis other = mask language.lexis text) : language.Alike text other where
  identities path hpath := by
    rw [codeView_of_not_component _ hpath, codeView_of_not_component _ hpath]
    exact language.identities_eq h
  calls registry before f after hf htext := by
    subst htext
    exact CallGraph.ofFiles_withContent hf h before after
  scores registry before f after hf htext := by
    subst htext
    exact Complexity.Report.ofFiles_withContent hf h before after

/-- Masking twice is masking once, and the masked text can stand in for the text: the same functions
are found at the same lines in the same scopes, with the same calls and the same scores. The same
holds of any two texts that are masked alike. Their comments and the bodies of their literals may
differ, but not in the widths of their lines, which masking keeps. -/
theorem analysis_factors_through_mask (language : Language) (text : List Char) :
    mask language.lexis (mask language.lexis text) = mask language.lexis text ∧
      language.Alike text (mask language.lexis text) ∧
      ∀ other, mask language.lexis other = mask language.lexis text →
      language.Alike text other := by
  have hmask := mask_mask language.visible_lexis text
  exact ⟨hmask, language.alike_of_mask_eq hmask, fun other h => language.alike_of_mask_eq h⟩

end CodeSurvey
