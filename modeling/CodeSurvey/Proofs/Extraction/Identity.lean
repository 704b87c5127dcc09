import CodeSurvey.Proofs.Extraction.Line

/-!
# What identifies a declaration

The name, the line and the scope of every declaration are read from the masked text, and so is the
place of its parameters. The text itself only adds what stands at that place, and types, signatures,
purposes and visibility.
-/
namespace CodeSurvey

/-- What a declaration is known by. -/
def Declaration.identity (d : Declaration) : String × Nat × ScopeKind :=
  (d.name, d.line, d.scope)

private theorem map_eraseDupsBy {α β : Type} {r : α → α → Bool} {s : β → β → Bool} {f : α → β}
    (h : ∀ a b, r a b = s (f a) (f b)) (l : List α) :
      (l.eraseDupsBy r).map f = (l.map f).eraseDupsBy s := by
  generalize hn : l.length = n
  induction n using Nat.strongRecOn generalizing l with
  | _ n ih =>
    cases l with
    | nil => rfl
    | cons a l =>
      rw [List.eraseDupsBy_cons, List.map_cons, List.map_cons, List.eraseDupsBy_cons,
        List.filter_map]
      have hlen := List.length_filter_le (fun b => decide (r b a = false)) l
      rw [List.length_cons] at hn
      rw [ih _ (by omega) _ rfl]
      have hfilter : ((fun b => decide (s b (f a) = false)) ∘ f) =
          fun b => decide (r b a = false) := by
        funext b
        rw [Function.comp_apply, h]
      rw [hfilter]

/-- Keeping the first of each name does not depend on anything else. -/
theorem Declaration.map_firstOfEachName {α : Type} {f : Declaration → String × α}
    (hf : ∀ d, (f d).1 = d.name) (ds : List Declaration) :
    (firstOfEachName ds).map f = (ds.map f).eraseDupsBy fun a b => a.1 == b.1 := by
  rw [firstOfEachName]
  apply map_eraseDupsBy
  intro d e
  rw [hf, hf]

/-- The masked text beside another text. -/
def SourceText.recast (s : SourceText) (raw : List Char) (rawLines : List (List Char)) :
    SourceText :=
  { s with raw, rawLines }

theorem SourceText.ofText_eq_recast {lexis : Lexis} {text other : List Char}
    (h : mask lexis other = mask lexis text) :
    ofText lexis other = (ofText lexis text).recast other (Text.pieces other) := by
  simp only [ofText, recast, h]

/-! ### Parameters where they stand -/

/-- The names and the default values of the parameters. -/
def Declaration.arguments (d : Declaration) : List (String × Option String) :=
  d.params.map fun p => (p.name, p.defaultValue)

/-- The parentheses around the parameters belong together. -/
def JavaScript.ParameterSource.StandsIn (s : SourceText) : JavaScript.ParameterSource → Prop
  | .between opening closing => matchingParen? s.masked opening = some closing
  | .bare _ => True

namespace Language

/-- Whether angle brackets nest in a list of parameters. -/
def hasGenerics : Language → Bool
  | .python => false
  | _ => true

/-- The name inside the function, where a label may stand in front of it, and the default value. -/
def argument : Language → Parameter → String × Option String
  | .swift, p => ((Swift.labelled p).param.name, (Swift.labelled p).param.defaultValue)
  | _, p => (p.name, p.defaultValue)

/-- What a text has at the place of some parameters. -/
def argumentsIn (language : Language) (s : SourceText) :
    JavaScript.ParameterSource → List (String × Option String)
  | .between opening closing =>
    (Parameter.parseMasked language.hasGenerics (Text.slice s.raw (opening + 1) closing)
      (Text.slice s.masked (opening + 1) closing)).map language.argument
  | .bare name => [(name, none)]

/-- Two texts declare one function, each with the parameters that it has at the place where these
stand. -/
structure Rereads (language : Language) (s t : SourceText) (d e : Declaration) : Prop where
  identity : e.identity = d.identity
  source : ∃ source : JavaScript.ParameterSource, source.StandsIn s ∧
    d.arguments = language.argumentsIn s source ∧ e.arguments = language.argumentsIn t source

theorem map_identity_of_rereads {language : Language} {s t : SourceText} {ds es : List Declaration}
    (h : List.Forall₂ (language.Rereads s t) ds es) :
    es.map Declaration.identity = ds.map Declaration.identity := by
  induction h with
  | nil => rfl
  | cons hde _ ih => rw [List.map_cons, List.map_cons, hde.identity, ih]

theorem forall₂_firstOfEachName {language : Language} {s t : SourceText} {ds es : List Declaration}
    (h : List.Forall₂ (language.Rereads s t) ds es) :
    List.Forall₂ (language.Rereads s t) (Declaration.firstOfEachName ds)
      (Declaration.firstOfEachName es) := by
  generalize hn : ds.length = n
  induction n using Nat.strongRecOn generalizing ds es with
  | _ n ih =>
    cases h with
    | nil => exact .nil
    | @cons d e ds es hde h =>
      have hname : ∀ {a b : Declaration}, language.Rereads s t a b → b.name = a.name :=
        fun hab => congrArg Prod.fst hab.identity
      have hrest : List.Forall₂ (language.Rereads s t) (ds.filter fun a => a.name ≠ d.name)
          (es.filter fun a => a.name ≠ e.name) := by
        rw [hname hde]
        exact List.rel_filter (fun a b hab => by simp [hname hab]) h
      have hlen := List.length_filter_le (fun a : Declaration => a.name ≠ d.name) ds
      rw [List.length_cons] at hn
      rw [Declaration.firstOfEachName_cons, Declaration.firstOfEachName_cons]
      exact .cons hde (ih _ (by omega) hrest rfl)

end Language

variable {s : SourceText} {raw : List Char} {rawLines : List (List Char)}

namespace Python

theorem identity_declare (s : SourceText) (stack : ScopeStack) (i : Nat) (h : Head) :
    (declare s stack i h).identity = ((stack.qualify h.name).1, i + 1, (stack.qualify h.name).2) :=
  rfl

/-- Documentation adds types and nothing else. -/
theorem map_argument_withDocTypes (tags : Doc.TypeTags) (params : List Parameter) :
    (withDocTypes tags params).map (fun p => (p.name, p.defaultValue)) =
      params.map fun p => (p.name, p.defaultValue) := by
  rw [withDocTypes, List.map_map]
  refine List.map_congr_left fun p _ => ?_
  rw [Function.comp_apply]
  split <;> rfl

theorem arguments_declare (s : SourceText) (stack : ScopeStack) (i : Nat) (h : Head) :
    (declare s stack i h).arguments = Language.python.argumentsIn s
    (.between h.opening h.closing) :=
  map_argument_withDocTypes _ _

theorem matchingParen?_of_head? {i : Nat} {line : List Char} {h : Head}
    (hhead : head? s i line = some h) :
    matchingParen? s.masked h.opening = some h.closing := by
  rw [head?] at hhead
  obtain ⟨m, -, hhead⟩ := Option.bind_eq_some_iff.1 hhead
  obtain ⟨closing, hclosing, hhead⟩ := Option.bind_eq_some_iff.1 hhead
  dsimp only at hhead
  split at hhead
  · cases hhead
  · obtain ⟨colon, -, hhead⟩ := Option.bind_eq_some_iff.1 hhead
    obtain rfl := Option.some.inj hhead
    exact hclosing

/-- Two walks that have found the same declarations. -/
structure Walk.Alike (s t : SourceText) (w v : Walk) : Prop where
  stack : v.stack = w.stack
  resume : v.resume = w.resume
  found : List.Forall₂ (Language.python.Rereads s t) w.found v.found

theorem Walk.Alike.visit {w v : Walk} (h : w.Alike s (s.recast raw rawLines) v)
    (entry : List Char × Nat) :
    (visit s w entry).Alike s (s.recast raw rawLines) (visit (s.recast raw rawLines) v entry) := by
  obtain ⟨line, i⟩ := entry
  obtain ⟨stack, resume, found⟩ := v
  obtain ⟨rfl, rfl, hfound⟩ := h
  have hhead : head? (s.recast raw rawLines) i line = head? s i line := rfl
  simp only [Python.visit, hhead]
  split
  · exact ⟨rfl, rfl, hfound⟩
  · split
    · exact ⟨rfl, rfl, hfound⟩
    · split
      · exact ⟨rfl, rfl, hfound⟩
      · rename_i head hhead
        refine ⟨rfl, rfl, .cons ⟨?_, .between head.opening head.closing,
          matchingParen?_of_head? hhead, ?_, ?_⟩ hfound⟩
        · rw [identity_declare, identity_declare]
        · exact arguments_declare _ _ _ _
        · exact arguments_declare _ _ _ _

theorem rereads {text other : List Char} (h : mask lexis other = mask lexis text) :
    List.Forall₂ (Language.python.Rereads (.ofText lexis text) (.ofText lexis other))
      (declarations text)
      (declarations other) := by
  simp only [declarations, SourceText.ofText_eq_recast h]
  have hwalk := List.foldl_rel (l := (SourceText.ofText lexis text).numberedLines)
    (f := visit (.ofText lexis text)) (g :=
      visit ((SourceText.ofText lexis text).recast other (Text.pieces other)))
    (a := ⟨.empty, 0, []⟩) (b := ⟨.empty, 0, []⟩)
    (r := Walk.Alike (.ofText lexis text)
      ((SourceText.ofText lexis text).recast other (Text.pieces other)))
    ⟨rfl, rfl, .nil⟩ fun entry _ w v hwv => hwv.visit entry
  exact Language.forall₂_firstOfEachName (List.rel_reverse hwalk.found)

end Python

namespace JavaScript

/-- A candidate without what is read from the text itself. -/
def Candidate.shape (c : Candidate) : Candidate :=
  { c with returnType := none, exported := false }

/-- The candidates outside all parameter lists, in order. -/
def arrange (found : List Candidate) : List Candidate :=
  let parens := found.filterMap Candidate.parens?
  (found.filter fun c => !parens.any fun p => p.1 < c.offset && c.offset < p.2).mergeSort
    fun a b => a.line < b.line || (a.line == b.line && a.order ≤ b.order)

theorem map_shape_arrange (found : List Candidate) :
    (arrange found).map Candidate.shape = arrange (found.map Candidate.shape) := by
  have hparens : (found.map Candidate.shape).filterMap Candidate.parens? =
      found.filterMap Candidate.parens? := by
    rw [List.filterMap_map]
    rfl
  simp only [arrange, hparens, List.filter_map]
  exact List.map_mergeSort fun a _ b _ => rfl

/-- All heads that some form finds. -/
def heads (s : SourceText) : List Candidate :=
  (forms.zipIdx.flatMap fun p => (p.1.head.findAll s.masked).filterMap (candidate? s p.2 p.1)) ++
    (bareArrow.findAll s.masked).filterMap (bareCandidate s)

theorem candidates_eq (s : SourceText) : candidates s = arrange (heads s) :=
  rfl

/-- The text has no part in what follows the parameters, but for the result type. -/
theorem readTail_fst (raw other masked : List Char) (closing : Nat) :
    (readTail other masked closing).1 = (readTail raw masked closing).1 := by
  simp only [readTail]
  split <;> rfl

theorem candidate?_shape (order : Nat) (form : Form) (m : Pattern.Match) :
    (candidate? (s.recast raw rawLines) order form m).map Candidate.shape =
      (candidate? s order form m).map Candidate.shape := by
  unfold candidate?
  cases m.group? "name" with
  | none => rfl
  | some name =>
    cases hclosing : matchingParen? s.masked (m.whole.stop.offset - 1) with
    | none => simp [SourceText.recast, hclosing]
    | some closing =>
      have htail := readTail_fst s.raw raw s.masked closing
      by_cases hname : name.string ∈ notDeclarations
      · simp [hname]
      · by_cases haccepts : form.tail.accepts (readTail s.raw s.masked closing).1 = true
        · simp [SourceText.recast, hclosing, hname, htail, haccepts, Candidate.shape]
        · simp [SourceText.recast, hclosing, htail, haccepts]

theorem bareCandidate_shape (m : Pattern.Match) :
    (bareCandidate (s.recast raw rawLines) m).map Candidate.shape =
      (bareCandidate s m).map Candidate.shape := by
  unfold bareCandidate
  cases m.group? "name" <;> rfl

theorem heads_shape :
    (heads (s.recast raw rawLines)).map Candidate.shape = (heads s).map Candidate.shape := by
  have hmasked : (s.recast raw rawLines).masked = s.masked := rfl
  simp only [heads, hmasked, List.map_append, List.map_flatMap, List.map_filterMap,
    candidate?_shape, bareCandidate_shape]

theorem candidates_shape :
    (candidates (s.recast raw rawLines)).map Candidate.shape =
      (candidates s).map Candidate.shape := by
  rw [candidates_eq, candidates_eq, map_shape_arrange, map_shape_arrange, heads_shape]

theorem standsIn_of_candidate? {order : Nat} {form : Form} {m : Pattern.Match} {c : Candidate}
    (h : candidate? s order form m = some c) : c.params.StandsIn s := by
  rw [candidate?] at h
  obtain ⟨name, -, h⟩ := Option.bind_eq_some_iff.1 h
  dsimp only at h
  split at h
  · cases h
  · obtain ⟨closing, hclosing, h⟩ := Option.bind_eq_some_iff.1 h
    split at h
    · cases h
    · obtain rfl := Option.some.inj h
      exact hclosing

theorem standsIn_of_bareCandidate {m : Pattern.Match} {c : Candidate}
    (h : bareCandidate s m = some c) :
    c.params.StandsIn s := by
  obtain ⟨name, -, h⟩ := Option.bind_eq_some_iff.1 h
  obtain rfl := Option.some.inj h
  trivial

theorem standsIn_of_mem_candidates {c : Candidate} (h : c ∈ candidates s) :
    c.params.StandsIn s := by
  rw [candidates_eq, arrange, List.mem_mergeSort] at h
  rcases List.mem_append.1 (List.mem_filter.1 h).1 with h | h
  · obtain ⟨p, -, h⟩ := List.mem_flatMap.1 h
    obtain ⟨m, -, hc⟩ := List.mem_filterMap.1 h
    exact standsIn_of_candidate? hc
  · obtain ⟨m, -, hc⟩ := List.mem_filterMap.1 h
    exact standsIn_of_bareCandidate hc

/-- Documentation adds types and nothing else. -/
theorem map_argument_withDocTypes (tags : Doc.TypeTags) (params : List Parameter) :
    (withDocTypes tags params).map (fun p => (p.name, p.defaultValue)) =
      params.map fun p => (p.name, p.defaultValue) := by
  rw [withDocTypes, List.map_map]
  refine List.map_congr_left fun p _ => ?_
  rw [Function.comp_apply]
  split <;> rfl

theorem arguments_declare (s : SourceText) (c : Candidate) (name : String) (scope : ScopeKind) :
    (declare s c name scope).arguments = Language.javaScript.argumentsIn s c.params := by
  refine (map_argument_withDocTypes _ _).trans ?_
  rw [Candidate.readParameters]
  cases c.params <;> rfl

/-- Two walks that have found the same declarations and are to meet the same heads. -/
structure Walk.Alike (s t : SourceText) (w v : Walk) : Prop where
  stack : v.stack = w.stack
  classes : v.classes = w.classes
  candidates : v.candidates.map Candidate.shape = w.candidates.map Candidate.shape
  standsIn : ∀ c ∈ w.candidates, c.params.StandsIn s
  found : List.Forall₂ (Language.javaScript.Rereads s t) w.found v.found

theorem alike_startWalk :
    (startWalk s).Alike s (s.recast raw rawLines) (startWalk (s.recast raw rawLines)) := by
  refine ⟨rfl, rfl, ?_, fun c hc => standsIn_of_mem_candidates (List.mem_filter.1 hc).1, .nil⟩
  have hkept : ∀ cs : List Candidate,
      (cs.filter fun c => !isTypeLine (typeSpans s) c.line).map Candidate.shape =
        (cs.map Candidate.shape).filter fun c => !isTypeLine (typeSpans s) c.line := by
    intro cs
    rw [List.filter_map]
    rfl
  exact ((hkept _).trans (congrArg _ candidates_shape)).trans (hkept _).symm

variable (s raw rawLines) in
theorem takeCandidates_alike {i depth : Nat} {stack : ScopeStack} {found others : List Declaration}
    {cs ds : List Candidate} (hcs : ds.map Candidate.shape = cs.map Candidate.shape)
    (hstands : ∀ c ∈ cs, c.params.StandsIn s)
    (hfound : List.Forall₂ (Language.javaScript.Rereads s (s.recast raw rawLines)) found others) :
    let one := takeCandidates s i depth stack found cs
    let two := takeCandidates (s.recast raw rawLines) i depth stack others ds
    two.1 = one.1 ∧ List.Forall₂ (Language.javaScript.Rereads s (s.recast raw rawLines))
      one.2.1 two.2.1 ∧
      two.2.2.map Candidate.shape = one.2.2.map Candidate.shape ∧
      ∀ c ∈ one.2.2, c.params.StandsIn s := by
  induction cs generalizing ds stack found others with
  | nil =>
    rw [List.map_nil, List.map_eq_nil_iff] at hcs
    subst hcs
    exact ⟨rfl, hfound, rfl, hstands⟩
  | cons c cs ih =>
    obtain ⟨d, ds, rfl, hd, hds⟩ := List.map_eq_cons_iff.1 hcs
    obtain ⟨hc, hmore⟩ := List.forall_mem_cons.1 hstands
    have hline : d.line = c.line := (congrArg Candidate.line hd :)
    have hname : d.name = c.name := (congrArg Candidate.name hd :)
    have hparams : d.params = c.params := (congrArg Candidate.params hd :)
    have honly : d.classOnly = c.classOnly := (congrArg Candidate.classOnly hd :)
    simp only [takeCandidates, hline, hname, honly]
    split
    · split
      · exact ih hds hmore hfound
      · refine ih hds hmore (.cons ⟨?_, c.params, hc, arguments_declare _ _ _ _, ?_⟩ hfound)
        · simp only [declare, Declaration.identity, hline]
        · rw [arguments_declare, hparams]
    · exact ⟨rfl, hfound, hcs, hstands⟩

theorem Walk.Alike.visit {w v : Walk} (h : w.Alike s (s.recast raw rawLines) v)
    (entry : (List Char × Nat) × Nat) :
    (visit s w entry).Alike s (s.recast raw rawLines) (visit (s.recast raw rawLines) v entry) := by
  obtain ⟨⟨line, i⟩, depth⟩ := entry
  obtain ⟨stack, classes, candidates, found⟩ := v
  obtain ⟨rfl, rfl, hcandidates, hstands, hfound⟩ := h
  simp only [JavaScript.visit]
  split
  · exact ⟨rfl, rfl, hcandidates, hstands, hfound⟩
  · obtain ⟨hstack, hfound, hcandidates, hstands⟩ :=
      takeCandidates_alike s raw rawLines hcandidates hstands hfound
    exact ⟨hstack, rfl, hcandidates, hstands, hfound⟩

theorem identity_markExported (names : List String) (d : Declaration) :
    (markExported names d).identity = d.identity := by
  rw [markExported]
  split <;> rfl

theorem arguments_markExported (names : List String) (d : Declaration) :
    (markExported names d).arguments = d.arguments := by
  rw [markExported]
  split <;> rfl

theorem rereads {text other : List Char} (h : mask lexis other = mask lexis text) :
    List.Forall₂ (Language.javaScript.Rereads (.ofText lexis text) (.ofText lexis other))
      (declarations text)
      (declarations other) := by
  simp only [declarations, SourceText.ofText_eq_recast h]
  have hwalk : (walk (.ofText lexis text)).Alike (.ofText lexis text)
      ((SourceText.ofText lexis text).recast other (Text.pieces other))
      (walk ((SourceText.ofText lexis text).recast other (Text.pieces other))) :=
    List.foldl_rel alike_startWalk fun entry _ w v hwv => hwv.visit entry
  refine Language.forall₂_firstOfEachName ?_
  rw [List.forall₂_map_left_iff, List.forall₂_map_right_iff]
  refine (List.rel_reverse hwalk.found).imp ?_
  rintro d e ⟨hidentity, source, hstands, hd, he⟩
  refine ⟨?_, source, hstands, ?_, ?_⟩
  · rw [identity_markExported, identity_markExported, hidentity]
  · rw [arguments_markExported, hd]
  · rw [arguments_markExported, he]

end JavaScript

namespace Swift

theorem identity_declare (s : SourceText) (stack : ScopeStack) (i : Nat) (h : Head) :
    (declare s stack i h).identity = ((stack.qualify h.name).1, i + 1, (stack.qualify h.name).2) :=
  rfl

theorem arguments_declare (s : SourceText) (stack : ScopeStack) (i : Nat) (h : Head) :
    (declare s stack i h).arguments = Language.swift.argumentsIn s
    (.between h.opening h.closing) := by
  simp only [declare, Declaration.arguments, List.map_map]
  rfl

theorem matchingParen?_of_head? {i : Nat} {line : List Char} {h : Head}
    (hhead : head? s i line = some h) :
    matchingParen? s.masked h.opening = some h.closing := by
  rw [head?] at hhead
  obtain ⟨m, -, hhead⟩ := Option.bind_eq_some_iff.1 hhead
  obtain ⟨closing, hclosing, hhead⟩ := Option.bind_eq_some_iff.1 hhead
  obtain rfl := Option.some.inj hhead
  exact hclosing

/-- Two walks that have found the same declarations. -/
structure Walk.Alike (s t : SourceText) (w v : Walk) : Prop where
  stack : v.stack = w.stack
  found : List.Forall₂ (Language.swift.Rereads s t) w.found v.found

theorem Walk.Alike.visit {w v : Walk} (h : w.Alike s (s.recast raw rawLines) v)
    (entry : (List Char × Nat) × Nat) :
    (visit s w entry).Alike s (s.recast raw rawLines) (visit (s.recast raw rawLines) v entry) := by
  obtain ⟨⟨line, i⟩, depth⟩ := entry
  obtain ⟨stack, found⟩ := v
  obtain ⟨rfl, hfound⟩ := h
  have hhead : head? (s.recast raw rawLines) i line = head? s i line := rfl
  simp only [Swift.visit, hhead]
  split
  · exact ⟨rfl, hfound⟩
  · split
    · exact ⟨rfl, hfound⟩
    · split
      · exact ⟨rfl, hfound⟩
      · rename_i head hhead
        refine ⟨rfl, .cons ⟨?_, .between head.opening head.closing, matchingParen?_of_head? hhead,
          ?_, ?_⟩ hfound⟩
        · rw [identity_declare, identity_declare]
        · exact arguments_declare _ _ _ _
        · exact arguments_declare _ _ _ _

theorem rereads {text other : List Char} (h : mask lexis other = mask lexis text) :
    List.Forall₂ (Language.swift.Rereads (.ofText lexis text) (.ofText lexis other))
      (declarations text)
      (declarations other) := by
  simp only [declarations, SourceText.ofText_eq_recast h]
  have hwalk := List.foldl_rel
    (l := (SourceText.ofText lexis text).numberedLines.zip
      (braceDepths (SourceText.ofText lexis text).masked))
    (f := visit (.ofText lexis text)) (g :=
      visit ((SourceText.ofText lexis text).recast other (Text.pieces other)))
    (a := ⟨.empty, []⟩) (b := ⟨.empty, []⟩)
    (r := Walk.Alike (.ofText lexis text)
      ((SourceText.ofText lexis text).recast other (Text.pieces other)))
    ⟨rfl, .nil⟩ fun entry _ w v hwv => hwv.visit entry
  exact Language.forall₂_firstOfEachName (List.rel_reverse hwalk.found)

end Swift

namespace Language

/-- Texts with one masked form declare the same functions, and have their parameters at the same
places. -/
theorem rereads (language : Language) {text other : List Char}
    (h : mask language.lexis other = mask language.lexis text) :
    List.Forall₂ (language.Rereads (.ofText language.lexis text) (.ofText language.lexis other))
      (language.declarations text) (language.declarations other) := by
  cases language with
  | python => exact Python.rereads h
  | javaScript => exact JavaScript.rereads h
  | swift => exact Swift.rereads h

/-- Texts with one masked form declare functions of the same names, lines and scopes. -/
theorem identities_eq (language : Language) {text other : List Char}
    (h : mask language.lexis other = mask language.lexis text) :
    (language.declarations other).map Declaration.identity =
      (language.declarations text).map Declaration.identity :=
  map_identity_of_rereads (language.rereads h)

end Language

end CodeSurvey
