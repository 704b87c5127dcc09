import CodeSurvey.Proofs.Extraction.Identity
import CodeSurvey.Proofs.Mask.Comment

/-!
# Parameters and comments

The parameters of a function are found in the masked text, where a comment is blank, and read from
the text, where it is not. A comment among them separates nothing, but it is read as a part of the
parameter that it stands in.
-/
namespace CodeSurvey

namespace Declaration

/-- The name, the line, and the names and the default values of the parameters. -/
def heading (d : Declaration) : String × Nat × List String × List (Option String) :=
  (d.name, d.line, d.params.map Parameter.name, d.params.map Parameter.defaultValue)

theorem heading_eq_iff {d e : Declaration} (h : e.identity = d.identity) :
    e.heading = d.heading ↔ e.arguments = d.arguments := by
  have hname : e.name = d.name := congrArg Prod.fst h
  have hline : e.line = d.line := congrArg (fun i => i.2.1) h
  simp only [heading, hname, hline, Prod.mk.injEq, true_and]
  constructor
  · rintro ⟨hnames, hdefaults⟩
    rw [arguments, arguments, ← List.zip_map', ← List.zip_map', hnames, hdefaults]
  · intro harguments
    have hnames := congrArg (List.map Prod.fst) harguments
    have hdefaults := congrArg (List.map Prod.snd) harguments
    rw [arguments, arguments, List.map_map, List.map_map] at hnames hdefaults
    exact ⟨hnames, hdefaults⟩

theorem map_heading_eq_iff {ds es : List Declaration} (h : es.map identity = ds.map identity) :
    es.map heading = ds.map heading ↔ es.map arguments = ds.map arguments := by
  induction ds generalizing es with
  | nil => simp only [List.map_nil, List.map_eq_nil_iff]
  | cons d ds ih =>
    obtain ⟨e, es, rfl, he, hes⟩ := List.map_eq_cons_iff.1 h
    simp only [List.map_cons, List.cons.injEq, heading_eq_iff he, ih hes]

end Declaration

/-- No comment stands among the parameters. -/
def JavaScript.ParameterSource.Uncommented (lexis : Lexis) (text : List Char) :
    JavaScript.ParameterSource → Prop
  | .between opening closing =>
    Text.slice (eraseComments lexis text) (opening + 1) closing =
      Text.slice text (opening + 1) closing
  | .bare _ => True

namespace Language

theorem exists_sources_of_rereads {language : Language} {s t : SourceText}
    {ds es : List Declaration} (h : List.Forall₂ (language.Rereads s t) ds es) :
    ∃ sources : List JavaScript.ParameterSource, (∀ source ∈ sources, source.StandsIn s) ∧
      ds.map Declaration.arguments = sources.map (language.argumentsIn s) ∧
      es.map Declaration.arguments = sources.map (language.argumentsIn t) := by
  induction h with
  | nil => exact ⟨[], nofun, rfl, rfl⟩
  | cons hde _ ih =>
    obtain ⟨sources, hstands, hds, hes⟩ := ih
    obtain ⟨source, hsource, hd, he⟩ := hde.source
    refine ⟨source :: sources, List.forall_mem_cons.2 ⟨hsource, hstands⟩, ?_, ?_⟩
    · rw [List.map_cons, List.map_cons, hd, hds]
    · rw [List.map_cons, List.map_cons, he, hes]

theorem argumentsIn_eraseComments (language : Language) {text : List Char}
    {source : JavaScript.ParameterSource} (h : source.Uncommented language.lexis text) :
    language.argumentsIn (.ofText language.lexis (eraseComments language.lexis text)) source =
      language.argumentsIn (.ofText language.lexis text) source := by
  cases source with
  | bare name => rfl
  | between opening closing =>
    rw [SourceText.ofText_eq_recast (mask_eraseComments language.visible_lexis text)]
    simp only [argumentsIn, SourceText.recast]
    rw [h]
    rfl

/-- Erasing comments blanks characters of a text and nothing else. The functions stay the same, at
the same lines and in the same scopes, and the parameters of each are read from the same place.
Their names and default values stay the same if and only if what stands at each of these places
reads the same without comments, as it does where there are none. -/
theorem headings_eraseComments_iff (language : Language) (text : List Char) :
    let bare := eraseComments language.lexis text
    let ds := language.declarations text
    let es := language.declarations bare
    Mask.Blanked text bare ∧ es.map Declaration.identity = ds.map Declaration.identity ∧
      ∃ sources : List JavaScript.ParameterSource,
        (∀ source ∈ sources, source.StandsIn (.ofText language.lexis text)) ∧
        ds.map Declaration.arguments =
          sources.map (language.argumentsIn (.ofText language.lexis text)) ∧
        es.map Declaration.arguments =
          sources.map (language.argumentsIn (.ofText language.lexis bare)) ∧
        (es.map Declaration.heading = ds.map Declaration.heading ↔ ∀ source ∈ sources,
          language.argumentsIn (.ofText language.lexis bare) source =
            language.argumentsIn (.ofText language.lexis text) source) ∧
        ((∀ source ∈ sources, source.Uncommented language.lexis text) →
          es.map Declaration.heading = ds.map Declaration.heading) := by
  intro bare ds es
  have hrereads := language.rereads (mask_eraseComments language.visible_lexis text)
  have hidentity := map_identity_of_rereads hrereads
  obtain ⟨sources, hstands, hds, hes⟩ := exists_sources_of_rereads hrereads
  have hiff : es.map Declaration.heading = ds.map Declaration.heading ↔ ∀ source ∈ sources,
      language.argumentsIn (.ofText language.lexis bare) source =
        language.argumentsIn (.ofText language.lexis text) source := by
    rw [Declaration.map_heading_eq_iff hidentity, hds, hes, List.map_inj_left]
  refine ⟨blanked_eraseComments language.lexis text, hidentity, sources, hstands, hds, hes, hiff,
    fun huncommented => hiff.2 ?_⟩
  exact fun source hsource => language.argumentsIn_eraseComments (huncommented source hsource)

/-- The comment after the first parameter becomes a part of the second one's name. -/
theorem comment_read_in_parameter :
    let text := "def f(a,  # first\n      b):\n    pass\n".toList
    let bare := eraseComments python.lexis text
    (python.declarations text).map Declaration.arguments = [[("a", none), ("# first b", none)]] ∧
      (python.declarations bare).map Declaration.arguments = [[("a", none), ("b", none)]] ∧
      (python.declarations bare).map Declaration.heading ≠
        (python.declarations text).map Declaration.heading := by
  intro text bare
  have htext : (python.declarations text).map Declaration.arguments =
      [[("a", none), ("# first b", none)]] := by
    decide +kernel
  have hbare : (python.declarations bare).map Declaration.arguments =
      [[("a", none), ("b", none)]] := by
    decide +kernel
  refine ⟨htext, hbare, fun hheadings => ?_⟩
  rw [Declaration.map_heading_eq_iff (headings_eraseComments_iff python text).2.1, htext,
    hbare] at hheadings
  exact absurd hheadings (by decide)

end Language

end CodeSurvey
