import CodeSurvey.Proofs.Extraction.Symbol
import CodeSurvey.Proofs.SymbolTable
import Mathlib.Data.List.Nodup

/-!
# Ids of functions

The id of a function is the path of its file and its name, with two colons between them. A path may
have colons in it, but no name that is found in a text has one, so that the last colon of an id
tells the two apart.
-/
namespace CodeSurvey

/-! ### Names without colons -/

theorem ScopeLine.exists_of_mem_openTypes {lines : List ScopeLine} {t : String × Nat}
    (h : t ∈ openTypes lines) :
    ∃ l ∈ lines, t.1 ∈ l.types := by
  induction lines with
  | nil => cases h
  | cons line rest ih =>
    rw [openTypes, List.mem_append] at h
    rcases h with h | h
    · split at h
      · obtain ⟨name, hname, rfl⟩ := List.mem_map.1 h
        exact ⟨line, List.mem_cons_self, hname⟩
      · cases h
    · obtain ⟨l, hl, ht⟩ := ih h
      exact ⟨l, List.mem_cons_of_mem line hl, ht⟩

theorem ScopeLine.exists_of_innermost? {lines : List ScopeLine} {name : String}
    (h : innermost? lines = some name) :
    ∃ l ∈ lines, name ∈ l.types := by
  obtain ⟨t, ht, rfl⟩ := Option.map_eq_some_iff.1 h
  exact exists_of_mem_openTypes (List.mem_of_getLast? ht)

theorem no_colon_of_isNameChar {name : String} (h : ∀ c ∈ name.toList, isNameChar c = true) :
    ':' ∉ name.toList :=
  fun hmem => ne_of_isNameChar (h ':' hmem) (by decide) rfl

theorem Pattern.NamesWord.no_colon {p : Pattern} {first more : Char → Bool}
    (hp : p.NamesWord first more) (hfirst : first ':' = false) (hmore : more ':' = false)
    {line : List Char} {m : Pattern.Match} (h : p.matchHead? line = some m) :
      ':' ∉ (m.string "name").toList := by
  intro hmem
  rw [Pattern.Match.string, String.toList_ofList] at hmem
  rcases (hp.name_within h).2 ':' hmem with hc | hc
  · rw [hfirst] at hc
    cases hc
  · rw [hmore] at hc
    cases hc

namespace Python

theorem namesWord_classHead : classHead.NamesWord Text.isWord Text.isWord := by
  have hgroups : classHead.groupBodies = [("name", .seq (.char Text.isWord) (.run Text.isWord))] :=
    rfl
  intro body hbody
  simpa [hgroups] using hbody

theorem no_colon_of_mem_types {s : SourceText} {l : ScopeLine} (hl : l ∈ scopeLines s)
    {name : String} (h : name ∈ l.types) : ':' ∉ name.toList := by
  obtain ⟨entry, -, rfl⟩ := List.mem_map.1 hl
  obtain ⟨m, hm, rfl⟩ := Option.map_eq_some_iff.1 (Option.mem_toList.1 h)
  exact namesWord_classHead.no_colon (by decide) (by decide) hm

end Python

namespace Swift

theorem namesWord_typeHead :
    typeHead.NamesWord (fun c => c.isAlpha || c == '_') (fun c => Text.isWord c || c == '.') := by
  have hgroups : typeHead.groupBodies =
      [("name", .seq (.char fun c => c.isAlpha || c == '_')
        (.run fun c => Text.isWord c || c == '.'))] := rfl
  intro body hbody
  simpa [hgroups] using hbody

theorem no_colon_of_typeName? {line : List Char} {name : String} (h : typeName? line = some name) :
    ':' ∉ name.toList := by
  rw [typeName?] at h
  obtain ⟨m, hm, hname⟩ := Option.bind_eq_some_iff.1 h
  dsimp only at hname
  split at hname
  · cases hname
  · obtain rfl := Option.some.inj hname
    exact namesWord_typeHead.no_colon (by decide) (by decide) hm

theorem no_colon_of_mem_types {s : SourceText} {l : ScopeLine} (hl : l ∈ scopeLines s)
    {name : String} (h : name ∈ l.types) : ':' ∉ name.toList := by
  obtain ⟨entry, -, rfl⟩ := List.mem_map.1 hl
  simp only [scopeLine, Option.mem_toList] at h
  exact no_colon_of_typeName? h

end Swift

namespace JavaScript

theorem no_colon_of_mem_types {text : List Char} {l : ScopeLine}
    (hl : l ∈ scopeLines (.ofText lexis text)) {name : String} (h : name ∈ l.types) :
      ':' ∉ name.toList := by
  obtain ⟨entry, -, rfl⟩ := List.mem_map.1 hl
  obtain ⟨c, hc, rfl⟩ := List.mem_map.1 h
  exact no_colon_of_isNameChar (names_of_mem_classes (List.mem_filter.1 hc).1).1.plain

end JavaScript

theorem Language.no_colon_of_mem_types {language : Language} {text : List Char} {l : ScopeLine}
    (hl : l ∈ language.scopeLines text) {name : String} (h : name ∈ l.types) :
      ':' ∉ name.toList := by
  cases language with
  | python => exact Python.no_colon_of_mem_types hl h
  | javaScript => exact JavaScript.no_colon_of_mem_types hl h
  | swift => exact Swift.no_colon_of_mem_types hl h

theorem Declaration.Placed.no_colon {language : Language} {text : List Char} {d : Declaration}
    (h : d.Placed (language.headsOn text) (language.scopeLines text)) : ':' ∉ d.name.toList := by
  obtain ⟨name, hname, hd⟩ := h.name
  have hsimple := no_colon_of_isNameChar (Language.names_of_mem_headsOn hname).plain
  rw [hd]
  cases howner : ScopeLine.innermost? ((language.scopeLines text).filter (·.number < d.line)) with
  | none => exact hsimple
  | some owner =>
    obtain ⟨l, hl, htype⟩ := ScopeLine.exists_of_innermost? howner
    have hqualifier := Language.no_colon_of_mem_types (List.mem_filter.1 hl).1 htype
    simp [String.toList_append, hsimple, hqualifier]

/-- The functions of a file have different names, without colons. -/
theorem Extraction.names_ofCode (language : Language) (caps : Capabilities) (path : String)
    (truncated : Bool) (text : List Char) :
    ((ofCode language caps path truncated text).functions.map Declaration.name).Nodup ∧
      ∀ d ∈ (ofCode language caps path truncated text).functions, ':' ∉ d.name.toList := by
  obtain ⟨ds, hds, hplaced, -⟩ := language.declarations_placed (language.codeView path text)
  have hfunctions : (ofCode language caps path truncated text).functions =
      (Declaration.firstOfEachName ds).map (Declaration.within caps) := by
    rw [← hds]
    rfl
  rw [hfunctions]
  refine ⟨?_, fun d hd => ?_⟩
  · rw [List.map_map]
    exact Declaration.nodup_name_firstOfEachName ds
  · obtain ⟨e, he, rfl⟩ := List.mem_map.1 hd
    exact (hplaced e (Declaration.mem_of_mem_firstOfEachName he)).no_colon

/-! ### Ids -/

/-- The first colon ends what is in front of it. -/
theorem append_colon_inj {as bs xs ys : List Char} (ha : ':' ∉ as) (hb : ':' ∉ bs)
    (h : as ++ ':' :: xs = bs ++ ':' :: ys) : as = bs ∧ xs = ys := by
  rcases List.append_eq_append_iff.1 h with ⟨cs, rfl, hcs⟩ | ⟨cs, rfl, hcs⟩
  · cases cs with
    | nil => simpa using hcs
    | cons c cs =>
      rw [List.cons_append, List.cons.injEq] at hcs
      exact absurd (by simp [← hcs.1]) hb
  · cases cs with
    | nil => simpa [eq_comm] using hcs
    | cons c cs =>
      rw [List.cons_append, List.cons.injEq] at hcs
      exact absurd (by simp [← hcs.1]) ha

theorem Definition.idOf_inj {path name file other : String} (hname : ':' ∉ name.toList)
    (hother : ':' ∉ other.toList) (h : idOf path name = idOf file other) :
      path = file ∧ name = other := by
  have hreverse : ∀ path name : String,
      (idOf path name).toList.reverse = name.toList.reverse ++
      ':' :: ':' :: path.toList.reverse := by
    simp [idOf, String.toList_append]
  have hlists := congrArg (fun id : String => id.toList.reverse) h
  simp only [hreverse] at hlists
  obtain ⟨hnames, hrest⟩ := append_colon_inj (by simpa using hname) (by simpa using hother) hlists
  rw [List.cons.injEq] at hrest
  exact ⟨String.toList_inj.1 (List.reverse_injective hrest.2),
    String.toList_inj.1 (List.reverse_injective hnames)⟩

/-- The functions of the file have different names, without colons. -/
structure ExtractedFile.IsNamed (f : ExtractedFile) : Prop where
  nodup : (f.functions.map Declaration.name).Nodup
  no_colon : ∀ d ∈ f.functions, ':' ∉ d.name.toList

theorem ExtractedFile.IsNamed.nodup_ids {f : ExtractedFile} (h : f.IsNamed) :
    (f.functions.map fun d => Definition.idOf f.path d.name).Nodup := by
  have hpairs := List.pairwise_map.1 h.nodup
  refine List.pairwise_map.2 (hpairs.imp_of_mem ?_)
  intro d e hd he hne heq
  exact hne (Definition.idOf_inj (h.no_colon d hd) (h.no_colon e he) heq).2

/-- Among files with different paths an id belongs to one function. -/
theorem nodup_symbolIds {files : List ExtractedFile} (hpaths : (files.map ExtractedFile.path).Nodup)
    (h : ∀ f ∈ files, f.IsNamed) : (symbolIds files).Nodup := by
  rw [symbolIds_eq, List.nodup_flatMap]
  refine ⟨fun f hf => (h f hf).nodup_ids, (List.pairwise_map.1 hpaths).imp_of_mem ?_⟩
  intro f g hf hg hne id hid hother
  obtain ⟨d, hd, rfl⟩ := List.mem_map.1 hid
  obtain ⟨e, he, heq⟩ := List.mem_map.1 hother
  exact hne (Definition.idOf_inj ((h g hg).no_colon e he) ((h f hf).no_colon d hd) heq).1.symm

end CodeSurvey
