import CodeSurvey.Proofs.Extraction.Identity
import CodeSurvey.Proofs.Extraction.Trace

/-!
# Extracted functions

The functions of a file have different names and come in the order of their lines. Each stands on a
line of the file where its head declares it, and is named after the innermost type that is open
there.
-/
namespace CodeSurvey

/-! ### Qualified names -/

theorem takeWhile_simple {name : String} (h : '.' ∉ name.toList) (rest : List Char) :
    (name.toList.reverse ++ rest).takeWhile (· != '.') =
      name.toList.reverse ++ rest.takeWhile (· != '.') := by
  apply List.takeWhile_append_of_pos
  intro c hc
  rw [List.mem_reverse] at hc
  rw [bne_iff_ne]
  rintro rfl
  exact h hc

theorem splitName_of_not_mem {name : String} (h : '.' ∉ name.toList) :
    splitName name = (none, name) := by
  have hsimple := takeWhile_simple h []
  rw [List.takeWhile_nil, List.append_nil] at hsimple
  rw [splitName, hsimple, List.drop_length]

/-- The owner may have dots in its name; the last dot stands before the simple name. -/
theorem splitName_qualified (owner : String) {name : String} (h : '.' ∉ name.toList) :
    splitName (owner ++ "." ++ name) = (some owner, name) := by
  have hreverse : (owner ++ "." ++ name).toList.reverse =
      name.toList.reverse ++ '.' :: owner.toList.reverse := by
    simp [String.toList_append]
  have hsimple := takeWhile_simple h ('.' :: owner.toList.reverse)
  rw [List.takeWhile_cons_of_neg (by simp), List.append_nil] at hsimple
  rw [splitName, hreverse, hsimple, List.drop_left]
  simp only [List.reverse_reverse, String.ofList_toList]

/-! ### Heads that stand on their lines -/

namespace Python

theorem names_of_mem_headsOn {s : SourceText} {i : Nat} {name : String} (h : name ∈ headsOn s i) :
    s.Names i name := by
  rw [headsOn, Option.mem_toList] at h
  obtain ⟨head, hhead, rfl⟩ := Option.map_eq_some_iff.1 h
  obtain ⟨line, hline, hhead⟩ := Option.bind_eq_some_iff.1 hhead
  rw [functionOn?] at hhead
  split at hhead
  · cases hhead
  · exact names_of_head? hline hhead

end Python

namespace Swift

theorem names_of_mem_headsOn {s : SourceText} {i : Nat} {name : String} (h : name ∈ headsOn s i) :
    s.Names i name := by
  rw [headsOn, Option.mem_toList] at h
  obtain ⟨head, hhead, rfl⟩ := Option.map_eq_some_iff.1 h
  obtain ⟨line, hline, hhead⟩ := Option.bind_eq_some_iff.1 hhead
  split at hhead
  · cases hhead
  · exact names_of_head? hline hhead

end Swift

namespace JavaScript

theorem names_of_mem_headsOn {text : List Char} {i : Nat} {name : String}
    (h : name ∈ headsOn (.ofText lexis text) i) : (SourceText.ofText lexis text).Names i name := by
  obtain ⟨c, hc, rfl⟩ := List.mem_map.1 h
  obtain ⟨hmem, hline⟩ := List.mem_filter.1 hc
  rw [← beq_iff_eq.1 hline]
  exact (named_of_mem_candidates hmem).1

end JavaScript

namespace Language

/-- The names that heads on line `i` declare. -/
def headsOn (language : Language) (text : List Char) (i : Nat) : List String :=
  match language with
  | .python => Python.headsOn (.ofText Python.lexis text) i
  | .javaScript => JavaScript.headsOn (.ofText JavaScript.lexis text) i
  | .swift => Swift.headsOn (.ofText Swift.lexis text) i

/-- The lines that take part in scopes. -/
def scopeLines (language : Language) (text : List Char) : List ScopeLine :=
  match language with
  | .python => Python.scopeLines (.ofText Python.lexis text)
  | .javaScript => JavaScript.scopeLines (.ofText JavaScript.lexis text)
  | .swift => Swift.scopeLines (.ofText Swift.lexis text)

/-- The innermost type that is open at a line; lines are counted from one. -/
def openType? (language : Language) (text : List Char) (line : Nat) : Option String :=
  ScopeLine.innermost? ((language.scopeLines text).filter (·.number < line))

theorem names_of_mem_headsOn {language : Language} {text : List Char} {i : Nat} {name : String}
    (h : name ∈ language.headsOn text i) :
      (SourceText.ofText language.lexis text).Names i name := by
  cases language with
  | python => exact Python.names_of_mem_headsOn h
  | javaScript => exact JavaScript.names_of_mem_headsOn h
  | swift => exact Swift.names_of_mem_headsOn h

end Language

/-! ### The functions of a file -/

theorem Declaration.Placed.of_identity {heads : Nat → List String} {lines : List ScopeLine}
    {d e : Declaration} (h : d.Placed heads lines) (he : e.identity = d.identity) :
      e.Placed heads lines := by
  have hname : e.name = d.name := congrArg Prod.fst he
  have hline : e.line = d.line := congrArg (fun identity => identity.2.1) he
  obtain ⟨⟨l, hl, hd⟩, name⟩ := h
  exact ⟨⟨l, hl, hline.trans hd⟩, by rwa [hname, hline]⟩

/-- Each language keeps the first of each name among placed declarations in the order of their
lines. -/
theorem Language.declarations_placed (language : Language) (text : List Char) :
    ∃ ds, language.declarations text = Declaration.firstOfEachName ds ∧
      (∀ d ∈ ds, d.Placed (language.headsOn text) (language.scopeLines text)) ∧
      ds.Pairwise fun d e => d.line ≤ e.line := by
  cases language with
  | python =>
    obtain ⟨stack, htrace⟩ := Python.trace_walk (.ofText Python.lexis text)
    exact ⟨_, rfl, fun d hd => htrace.placed.1 d (List.mem_reverse.1 hd),
      List.pairwise_reverse.2 htrace.placed.2⟩
  | swift =>
    obtain ⟨stack, htrace⟩ := Swift.trace_walk (.ofText Swift.lexis text)
    exact ⟨_, rfl, fun d hd => htrace.placed.1 d (List.mem_reverse.1 hd),
      List.pairwise_reverse.2 htrace.placed.2⟩
  | javaScript =>
    obtain ⟨stack, htrace⟩ := JavaScript.trace_walk text
    have hmark := fun d => JavaScript.identity_markExported
      (JavaScript.exportedNames (SourceText.ofText JavaScript.lexis text).masked) d
    refine ⟨_, rfl, fun d hd => ?_, ?_⟩
    · obtain ⟨e, he, rfl⟩ := List.mem_map.1 hd
      exact (htrace.placed.1 e (List.mem_reverse.1 he)).of_identity (hmark e)
    · rw [List.pairwise_map, List.pairwise_reverse]
      refine htrace.placed.2.imp fun {d e} hde => ?_
      have hline : ∀ d, (JavaScript.markExported _ d).line = d.line := fun d =>
        congrArg (fun identity => identity.2.1) (hmark d)
      rwa [hline, hline]

/-- What holds of a function that is found in a file: it stands on one of its lines, where a head
declares its simple name, and the rest of its name is the innermost type that is open there. -/
structure Declaration.StandsIn (language : Language) (path : String) (text : List Char)
    (d : Declaration) : Prop where
  line_pos : 1 ≤ d.line
  line_le : d.line ≤ (Text.pieces text).length
  name_on_line : ∃ line, (Text.pieces text)[d.line - 1]? = some line ∧ d.simpleName.toList <:+: line
  declared : d.simpleName ∈ language.headsOn (language.codeView path text) (d.line - 1)
  simple : '.' ∉ d.simpleName.toList
  owner : d.owner? = language.openType? (language.codeView path text) d.line

/-- A line of the code of a file on which a name stands is a line of the file. -/
theorem Language.exists_line_of_codeView {language : Language} {path : String}
    {text part shown : List Char} {i : Nat}
    (hshown : (Text.pieces (language.codeView path text))[i]? = some shown)
    (hpart : part <:+: shown) :
    ∃ line, (Text.pieces text)[i]? = some line ∧ part <:+: line := by
  cases language with
  | python => exact ⟨shown, hshown, hpart⟩
  | swift => exact ⟨shown, hshown, hpart⟩
  | javaScript =>
    obtain ⟨line, hline, rfl | rfl⟩ := exists_left_of_forall₂
      (JavaScript.forall₂_codeView path text) hshown
    · rw [List.infix_nil] at hpart
      exact ⟨line, hline, hpart ▸ List.nil_infix⟩
    · exact ⟨shown, hline, hpart⟩

theorem Declaration.Placed.split {language : Language} {text : List Char} {d : Declaration}
    (h : d.Placed (language.headsOn text) (language.scopeLines text)) :
    d.simpleName ∈ language.headsOn text (d.line - 1) ∧
    d.owner? = language.openType? text d.line := by
  obtain ⟨name, hname, hd⟩ := h.name
  have hdot : '.' ∉ name.toList := fun hmem =>
    ne_of_isNameChar ((Language.names_of_mem_headsOn hname).plain '.' hmem) (by decide) rfl
  rw [simpleName, owner?, hd, Language.openType?]
  cases ScopeLine.innermost? ((language.scopeLines text).filter (·.number < d.line)) with
  | none =>
    rw [splitName_of_not_mem hdot]
    exact ⟨hname, rfl⟩
  | some owner =>
    rw [splitName_qualified owner hdot]
    exact ⟨hname, rfl⟩

theorem Declaration.Placed.standsIn {language : Language} {path : String} {text : List Char}
    {d : Declaration} (h : d.Placed (language.headsOn (language.codeView path text))
      (language.scopeLines (language.codeView path text))) : d.StandsIn language path text := by
  obtain ⟨hdeclared, howner⟩ := h.split
  have hnames := Language.names_of_mem_headsOn hdeclared
  obtain ⟨shown, hshown, hpart⟩ := hnames.raw
  obtain ⟨line, hline, hwithin⟩ := Language.exists_line_of_codeView hshown hpart
  obtain ⟨l, -, hl⟩ := h.line
  have hlt := (List.getElem?_eq_some_iff.1 hline).1
  constructor
  · omega
  · omega
  · exact ⟨line, hline, hwithin⟩
  · exact hdeclared
  · exact fun hmem => ne_of_isNameChar (hnames.plain '.' hmem) (by decide) rfl
  · exact howner

/-- The functions of a file are well formed. -/
theorem Extraction.functions_standIn (language : Language) (caps : Capabilities) (path : String)
    (truncated : Bool) (text : List Char) :
    ((ofCode language caps path truncated text).functions.map Declaration.name).Nodup ∧
      (ofCode language caps path truncated text).functions.Pairwise (fun d e => d.line ≤ e.line) ∧
      ∀ d ∈ (ofCode language caps path truncated text).functions,
        d.StandsIn language path text := by
  obtain ⟨ds, hds, hplaced, hordered⟩ := language.declarations_placed (language.codeView path text)
  have hfunctions : (ofCode language caps path truncated text).functions =
      (Declaration.firstOfEachName ds).map (Declaration.within caps) := by
    rw [← hds]
    rfl
  rw [hfunctions]
  refine ⟨?_, ?_, ?_⟩
  · rw [List.map_map]
    exact Declaration.nodup_name_firstOfEachName ds
  · rw [List.pairwise_map]
    exact hordered.sublist (Declaration.firstOfEachName_sublist ds)
  · intro d hd
    obtain ⟨e, he, rfl⟩ := List.mem_map.1 hd
    have hwithin : (e.within caps).identity = e.identity := rfl
    exact ((hplaced e (Declaration.mem_of_mem_firstOfEachName he)).of_identity hwithin).standsIn

/-- The method of a class in the script of a component. -/
theorem Extraction.component_method_standsIn :
    ∃ d ∈ (ofCode .javaScript (Language.javaScript.capabilities "vue") "a.vue" false
        "<p/>\n<script>\nclass A \x7b\n f() \x7b\x7d\n\x7d\n</script>".toList).functions,
      (d.name = "A.f" ∧ d.line = 4) ∧ d.StandsIn .javaScript "a.vue"
        "<p/>\n<script>\nclass A \x7b\n f() \x7b\x7d\n\x7d\n</script>".toList := by
  have hfound : ∃ d ∈ (ofCode .javaScript (Language.javaScript.capabilities "vue") "a.vue" false
      "<p/>\n<script>\nclass A \x7b\n f() \x7b\x7d\n\x7d\n</script>".toList).functions,
      d.name = "A.f" ∧ d.line = 4 := by
    decide +kernel
  obtain ⟨d, hd, hknown⟩ := hfound
  exact ⟨d, hd, hknown, (functions_standIn _ _ _ _ _).2.2 d hd⟩

end CodeSurvey
