import CodeSurvey.Import.Graph
import CodeSurvey.Proofs.Graph.Basic

/-!
# Accounting for import tokens

No import token is lost. A token that means nothing is kept, in order; one that means the file it
stands in is dropped; of the others, the first one for each target is recorded. The graph has the
recorded edges and no others.
-/
namespace CodeSurvey

/-- The import tokens of a file, in the order in which they are accounted for. -/
def ExtractedFile.importTokens (f : ExtractedFile) : List String :=
  f.extraction.fileMeta.imports.internal ++ f.extraction.fileMeta.imports.external

/-- The language that reads a file. -/
def ExtractedFile.language? (registry : Registry) (f : ExtractedFile) : Option Language :=
  (registry.forPath? f.path).map Registration.language

namespace Import

section Tokens

variable (language : Language) (present : String → Bool) (source : String)

/-- What is kept of a token that means nothing. -/
def missing? (token : String) : Option Unresolved :=
  match resolve? language present token source with
  | some _ => none
  | none => some ⟨source, token, if language.isRelativeImport token then .unresolved else .external⟩

/-- The first token that means the target. -/
def firstToken? (tokens : List String) (target : String) : Option String :=
  tokens.find? fun token => resolve? language present token source == some target

/-- The edges hold one entry for each other file that some token means, with the first such
token. -/
structure Gathers (tokens : List String) (edges : List Edge) : Prop where
  mem_iff : ∀ e, e ∈ edges ↔ e.source = source ∧ e.target ≠ source ∧
    firstToken? language present source tokens e.target = some e.token
  nodup : (edges.map Edge.target).Nodup

end Tokens

variable {registry : Registry} {language : Language} {present : String → Bool}
  {source token target : String}
  {tokens : List String} {edges : List Edge}

theorem resolve?_of_firstToken?
    (h : firstToken? language present source tokens target = some token) :
    token ∈ tokens ∧ resolve? language present token source = some target := by
  rw [firstToken?] at h
  have hfound := List.find?_some h
  exact ⟨List.mem_of_find?_eq_some h, by simpa using hfound⟩

/-- What a token means is a file of the tree. -/
theorem present_of_resolve? (h : resolve? language present token source = some target) :
    present target = true := by
  rw [resolve?] at h
  split at h
  · cases h
  · obtain ⟨base, -, hbase⟩ := List.exists_of_findSome?_eq_some h
    obtain ⟨suffix, -, hsuffix⟩ := List.exists_of_findSome?_eq_some hbase
    obtain ⟨hpresent, htarget⟩ := Option.ite_none_right_eq_some.1 hsuffix
    obtain rfl := Option.some.inj htarget
    exact (Bool.and_eq_true_iff.1 hpresent).2

theorem exists_firstToken? (htoken : token ∈ tokens)
    (h : resolve? language present token source = some target) :
    ∃ first, firstToken? language present source tokens target = some first := by
  rw [← Option.isSome_iff_exists, firstToken?, List.find?_isSome]
  exact ⟨token, htoken, beq_iff_eq.2 h⟩

/-- One more token is the first for its target unless there was one before. -/
theorem firstToken?_concat :
    firstToken? language present source (tokens ++ [token]) target =
      (firstToken? language present source tokens target).or
        (if resolve? language present token source = some target then some token else none) := by
  rw [firstToken?, List.find?_append, List.find?_singleton]
  simp only [beq_iff_eq]
  rfl

namespace Gathers

theorem nil : Gathers language present source [] [] :=
  ⟨by simp [firstToken?], .nil⟩

/-- A token whose target is there already, or is the file itself, adds nothing. -/
theorem skip (h : Gathers language present source tokens edges)
    (hold : ∀ target, resolve? language present token source = some target →
      target = source ∨ ∃ e ∈ edges, e.target = target) :
    Gathers language present source (tokens ++ [token]) edges := by
  refine ⟨fun e => ?_, h.nodup⟩
  rw [h.mem_iff]
  refine and_congr_right fun _ => and_congr_right fun hne => ?_
  rw [firstToken?_concat]
  by_cases htoken : resolve? language present token source = some e.target
  · obtain ⟨old, hmem, htarget⟩ := (hold _ htoken).resolve_left hne
    rw [← htarget, ((h.mem_iff old).1 hmem).2.2]
    rfl
  · rw [if_neg htoken, Option.or_none]

/-- A token with a new target adds an edge. -/
theorem concat (h : Gathers language present source tokens edges)
    (htoken : resolve? language present token source = some target) (hne : target ≠ source)
    (hnew : ∀ e ∈ edges, e.target ≠ target) :
    Gathers language present source (tokens ++ [token]) (edges ++ [⟨source, target, token⟩]) := by
  constructor
  · intro e
    rw [List.mem_append, List.mem_singleton, h.mem_iff, firstToken?_concat, htoken]
    simp only [Option.some_inj]
    by_cases htarget : target = e.target
    · -- no token so far means this target, since it would have given an edge
      have hnone : firstToken? language present source tokens e.target = none := by
        rw [Option.eq_none_iff_forall_ne_some]
        intro first hfirst
        have hmem := (h.mem_iff ⟨source, target, first⟩).2 ⟨rfl, hne, by rwa [htarget]⟩
        exact hnew _ hmem rfl
      rw [hnone, if_pos htarget, Option.none_or]
      obtain ⟨s, t, k⟩ := e
      subst htarget
      simp [hne, eq_comm]
    · rw [if_neg htarget, Option.or_none]
      refine or_iff_left fun heq => htarget ?_
      rw [heq]
  · rw [List.map_append, List.map_singleton]
    refine List.nodup_append'.2 ⟨h.nodup, List.nodup_singleton _, ?_⟩
    rw [List.disjoint_singleton]
    intro hmem
    obtain ⟨e, he, htarget⟩ := List.mem_map.1 hmem
    exact hnew e he htarget

end Gathers

namespace Resolution

/-! ### Recorded edges in place of the set of pairs -/

/-- Accounts for one token of a file by a search in the edges that are recorded. -/
def addToken (language : Language) (present : String → Bool) (source : String) (r : Resolution)
    (token : String) : Resolution :=
  match resolve? language present token source with
  | some target =>
    if target = source || r.resolved.any (fun e => e.source == source && e.target == target) then r
    else
      { r with
        resolved := r.resolved ++ [⟨source, target, token⟩]
        graph := r.graph.addEdge source target }
  | none =>
    let kind := if language.isRelativeImport token then .unresolved else .external
    { r with unresolved := r.unresolved ++ [⟨source, token, kind⟩] }

def addFile (registry : Registry) (present : String → Bool) (r : Resolution) (f : ExtractedFile) :
    Resolution :=
  match f.language? registry with
  | none => r
  | some language =>
    f.importTokens.foldl (addToken language present f.path)
      { r with graph := r.graph.addNode f.path }

namespace Walk

variable {w : Walk} {f : ExtractedFile}

/-- The set holds the pairs of files between which an edge is recorded. -/
def Tracks (w : Walk) : Prop :=
  ∀ pair, pair ∈ w.seen ↔ pair ∈ w.result.resolved.map fun e => (e.source, e.target)

theorem tracks_start : start.Tracks := by
  simp [Tracks, start, empty]

theorem Tracks.contains (h : w.Tracks) (source target : String) :
    w.seen.contains (source, target) =
      w.result.resolved.any (fun e => e.source == source && e.target == target) := by
  rw [Bool.eq_iff_iff, ← Std.HashSet.mem_iff_contains, h]
  simp [Prod.ext_iff]

/-- With the set a token is accounted for as with the edges, and the set still holds their pairs. -/
theorem Tracks.addToken (h : w.Tracks) (language : Language) (present : String → Bool)
    (source token : String) :
    (w.addToken language present source token).Tracks ∧
      (w.addToken language present source token).result =
        w.result.addToken language present source token := by
  rw [Walk.addToken, Resolution.addToken]
  cases resolve? language present token source with
  | none => exact ⟨h, rfl⟩
  | some target =>
    dsimp only
    rw [h.contains]
    by_cases hold : (target = source || w.result.resolved.any fun e =>
        e.source == source && e.target == target) = true
    · rw [if_pos hold, if_neg]
      · exact ⟨h, rfl⟩
      · simpa [bne_iff_ne, imp_iff_not_or] using hold
    · rw [if_neg hold, if_pos]
      · refine ⟨fun pair => ?_, rfl⟩
        rw [Std.HashSet.mem_insert, h, beq_iff_eq, List.map_append, List.mem_append,
          List.map_singleton, List.mem_singleton]
        exact or_comm.trans (or_congr_right eq_comm)
      · simpa [bne_iff_ne] using hold

theorem Tracks.foldl_addToken (h : w.Tracks) (language : Language) (present : String → Bool)
    (source : String) (tokens : List String) :
    (tokens.foldl (Walk.addToken language present source) w).Tracks ∧
      (tokens.foldl (Walk.addToken language present source) w).result =
        tokens.foldl (Resolution.addToken language present source) w.result := by
  induction tokens generalizing w with
  | nil => exact ⟨h, rfl⟩
  | cons token tokens ih =>
    obtain ⟨hnext, hresult⟩ := h.addToken language present source token
    rw [List.foldl_cons, List.foldl_cons, ← hresult]
    exact ih hnext

theorem Tracks.addFile (h : w.Tracks) (registry : Registry) (present : String → Bool)
    (f : ExtractedFile) :
    (w.addFile registry present f).Tracks ∧
      (w.addFile registry present f).result = w.result.addFile registry present f := by
  rw [Walk.addFile, Resolution.addFile, ExtractedFile.language?]
  cases registry.forPath? f.path with
  | none => exact ⟨h, rfl⟩
  | some r =>
    have hnode : Tracks ⟨{ w.result with graph := w.result.graph.addNode f.path }, w.seen⟩ := h
    exact hnode.foldl_addToken r.language present f.path f.importTokens

theorem Tracks.foldl_addFile (h : w.Tracks) (registry : Registry) (present : String → Bool)
    (files : List ExtractedFile) :
    (files.foldl (Walk.addFile registry present) w).result =
      files.foldl (Resolution.addFile registry present) w.result := by
  induction files generalizing w with
  | nil => rfl
  | cons f files ih =>
    obtain ⟨hnext, hresult⟩ := h.addFile registry present f
    rw [List.foldl_cons, List.foldl_cons, ih hnext, hresult]

end Walk

theorem ofFiles_eq_foldl (registry : Registry) (present : String → Bool)
    (files : List ExtractedFile) :
    ofFiles registry present files = files.foldl (addFile registry present) empty :=
  Walk.tracks_start.foldl_addFile registry present files

/-- Adds edges one after the other. -/
def addEdges (g : Graph) (edges : List Edge) : Graph :=
  edges.foldl (fun g e => g.addEdge e.source e.target) g

/-- The tokens of a file of which nothing is recorded yet give its edges and what they leave
unresolved. -/
theorem foldl_addToken {r : Resolution} (hfresh : ∀ e ∈ r.resolved, e.source ≠ source)
    (tokens : List String) :
    ∃ edges, Gathers language present source tokens edges ∧
      tokens.foldl (addToken language present source) r =
        ⟨r.resolved ++ edges, r.unresolved ++ tokens.filterMap (missing? language present source),
          addEdges r.graph edges⟩ := by
  induction tokens using List.reverseRecOn with
  | nil => exact ⟨[], .nil, by simp [addEdges]⟩
  | append_singleton tokens token ih =>
    obtain ⟨edges, hedges, hfold⟩ := ih
    rw [List.foldl_append, hfold, List.foldl_cons, List.foldl_nil, List.filterMap_append, addToken]
    cases htoken : resolve? language present token source with
    | none =>
      refine ⟨edges, hedges.skip (by simp [htoken]), ?_⟩
      have hmissing : [token].filterMap (missing? language present source) =
          [⟨source, token,
            if language.isRelativeImport token then .unresolved else .external⟩] := by
        simp [missing?, htoken]
      dsimp only
      rw [hmissing, List.append_assoc]
    | some target =>
      have hmissing : [token].filterMap (missing? language present source) =
          [] := by simp [missing?, htoken]
      -- the edges from before are those of other files
      have hany : ((r.resolved ++ edges).any fun e => e.source == source && e.target == target) =
          true ↔
          ∃ e ∈ edges, e.target = target := by
        simp only [List.any_eq_true, List.mem_append, Bool.and_eq_true, beq_iff_eq]
        constructor
        · rintro ⟨e, he | he, hsource, htarget⟩
          · exact absurd hsource (hfresh e he)
          · exact ⟨e, he, htarget⟩
        · rintro ⟨e, he, htarget⟩
          exact ⟨e, .inr he, ((hedges.mem_iff e).1 he).1, htarget⟩
      rw [hmissing, List.append_nil]
      dsimp only
      split
      · rename_i hold
        rw [Bool.or_eq_true, decide_eq_true_eq, hany] at hold
        refine ⟨edges, hedges.skip fun other hother => ?_, rfl⟩
        obtain rfl := Option.some.inj (htoken.symm.trans hother)
        exact hold
      · rename_i hnew
        rw [Bool.or_eq_true, decide_eq_true_eq, hany, not_or, not_exists] at hnew
        refine ⟨edges ++ [⟨source, target, token⟩], ?_, ?_⟩
        · exact hedges.concat htoken hnew.1 fun e he htarget => hnew.2 e ⟨he, htarget⟩
        · simp [addEdges]

theorem mem_nodes_addEdges {g : Graph} {v : String} :
    v ∈ (addEdges g edges).nodes ↔ v ∈ g.nodes ∨ ∃ e ∈ edges, v = e.source ∨ v = e.target := by
  induction edges generalizing g with
  | nil => simp [addEdges]
  | cons e edges ih =>
    have hcons : addEdges g (e :: edges) = addEdges (g.addEdge e.source e.target) edges := rfl
    rw [hcons, ih, Graph.mem_addEdge, or_assoc]
    simp

/-- Edges that are new and different are put at the end. -/
theorem edges_addEdges {g : Graph} (hnodup : (edges.map fun e => (e.source, e.target)).Nodup)
    (hnew : ∀ e ∈ edges, (e.source, e.target) ∉ g.edges) :
    (addEdges g edges).edges = g.edges ++ edges.map fun e => (e.source, e.target) := by
  induction edges generalizing g with
  | nil => simp [addEdges]
  | cons e edges ih =>
    rw [List.map_cons, List.nodup_cons] at hnodup
    obtain ⟨he, hedges⟩ := List.forall_mem_cons.1 hnew
    have hadd : (g.addEdge e.source e.target).edges = g.edges ++ [(e.source, e.target)] :=
      Graph.edges_addEdge fun hedge => he (Graph.edge_iff.1 hedge)
    have hcons : addEdges g (e :: edges) = addEdges (g.addEdge e.source e.target) edges := rfl
    rw [hcons, ih hnodup.2, hadd, List.append_assoc]
    · rfl
    · intro d hd
      rw [hadd, List.mem_append, List.mem_singleton, not_or]
      refine ⟨hedges d hd, fun heq => hnodup.1 ?_⟩
      rw [← heq]
      exact List.mem_map_of_mem hd

/-! ### Files -/

section Files

variable (registry present)

/-- What the tokens of a file leave unresolved, in order. -/
def missingOf (f : ExtractedFile) : List Unresolved :=
  match f.language? registry with
  | some language => f.importTokens.filterMap (missing? language present f.path)
  | none => []

/-- The edge is one that the file gives: to another file, with the first of its tokens that means
that one. -/
def GivenBy (e : Edge) (f : ExtractedFile) : Prop :=
  ∃ language, f.language? registry = some language ∧ e.source = f.path ∧ e.target ≠ f.path ∧
    firstToken? language present f.path f.importTokens e.target = some e.token

/-- What is kept while files are accounted for. -/
structure Sound (files : List ExtractedFile) (r : Resolution) : Prop where
  mem_resolved : ∀ e, e ∈ r.resolved ↔ ∃ f ∈ files, GivenBy registry present e f
  nodup : (r.resolved.map fun e => (e.source, e.target)).Nodup
  unresolved : r.unresolved = files.flatMap (missingOf registry present)
  edges : r.graph.edges = r.resolved.map fun e => (e.source, e.target)
  nodes : ∀ v, v ∈ r.graph.nodes ↔
    (∃ f ∈ files, (f.language? registry).isSome ∧ v = f.path) ∨ ∃ e ∈ r.resolved, v = e.target

end Files

theorem sound_empty : Sound registry present [] empty where
  mem_resolved := by simp [empty]
  nodup := .nil
  unresolved := rfl
  edges := rfl
  nodes := by simp [empty, Graph.empty]

variable {files : List ExtractedFile} {f : ExtractedFile} {r : Resolution}

/-- A file that no language reads changes nothing. -/
theorem addFile_of_none (h : f.language? registry = none) : addFile registry present r f = r := by
  rw [addFile, h]

theorem addFile_of_some (h : f.language? registry = some language) :
    addFile registry present r f = f.importTokens.foldl (addToken language present f.path)
      { r with graph := r.graph.addNode f.path } := by
  rw [addFile, h]

theorem Sound.addFile (h : Sound registry present files r)
    (hnew : f.path ∉ files.map ExtractedFile.path) :
    Sound registry present (files ++ [f]) (r.addFile registry present f) := by
  cases hlanguage : f.language? registry with
  | none =>
    have hgiven : ∀ e, ¬GivenBy registry present e f := by
      rintro e ⟨language, hsome, -⟩
      rw [hlanguage] at hsome
      cases hsome
    rw [addFile_of_none hlanguage]
    constructor
    · simpa [hgiven, or_and_right, exists_or] using h.mem_resolved
    · exact h.nodup
    · simpa [missingOf, hlanguage] using h.unresolved
    · exact h.edges
    · simpa [hlanguage, or_and_right, exists_or] using h.nodes
  | some language =>
    have hother : ∀ e ∈ r.resolved, e.source ≠ f.path := by
      intro e he hsource
      obtain ⟨g, hg, _, -, hpath, -⟩ := (h.mem_resolved e).1 he
      exact hnew (List.mem_map.2 ⟨g, hg, hpath ▸ hsource⟩)
    obtain ⟨edges, hedges, hfold⟩ := @foldl_addToken language present f.path
      { r with graph := r.graph.addNode f.path } hother f.importTokens
    have hgiven : ∀ e, e ∈ edges ↔ GivenBy registry present e f := by
      intro e
      rw [hedges.mem_iff, GivenBy]
      simp [hlanguage]
    have hpairs : (edges.map fun e => (e.source, e.target)).Nodup :=
      List.Nodup.of_map Prod.snd (by simpa [Function.comp_def] using hedges.nodup)
    have hsource : ∀ e ∈ edges, e.source = f.path := fun e he => ((hedges.mem_iff e).1 he).1
    have hfresh : ∀ e ∈ edges, (e.source, e.target) ∉ r.graph.edges := by
      intro e he hmem
      rw [h.edges] at hmem
      obtain ⟨old, hold, heq⟩ := List.mem_map.1 hmem
      exact hother old hold ((congrArg Prod.fst heq).trans (hsource e he))
    rw [addFile_of_some hlanguage, hfold]
    constructor
    · intro e
      simp [h.mem_resolved, hgiven, or_and_right, exists_or]
    · rw [List.map_append, List.nodup_append']
      refine ⟨h.nodup, hpairs, ?_⟩
      rw [← h.edges]
      intro pair hpair hmem
      obtain ⟨e, he, rfl⟩ := List.mem_map.1 hmem
      exact hfresh e he hpair
    · simp [h.unresolved, missingOf, hlanguage]
    · dsimp only
      rw [edges_addEdges hpairs (by simpa using hfresh), Graph.edges_addNode, h.edges,
        List.map_append]
    · intro v
      simp only [mem_nodes_addEdges, Graph.mem_addNode, h.nodes, List.mem_append,
        List.mem_singleton]
      constructor
      · rintro (((⟨g, hg, hread⟩ | ⟨e, he, htarget⟩) | rfl) | ⟨e, he, rfl | rfl⟩)
        · exact .inl ⟨g, .inl hg, hread⟩
        · exact .inr ⟨e, .inl he, htarget⟩
        · exact .inl ⟨f, .inr rfl, by simp [hlanguage]⟩
        · exact .inl ⟨f, .inr rfl, by simp [hlanguage, hsource e he]⟩
        · exact .inr ⟨e, .inr he, rfl⟩
      · rintro (⟨g, hg | rfl, hread⟩ | ⟨e, he | he, htarget⟩)
        · exact .inl (.inl (.inl ⟨g, hg, hread⟩))
        · exact .inl (.inr hread.2)
        · exact .inl (.inl (.inr ⟨e, he, htarget⟩))
        · exact .inr ⟨e, he, .inr htarget⟩

theorem sound_ofFiles (h : (files.map ExtractedFile.path).Nodup) :
    Sound registry present files (ofFiles registry present files) := by
  rw [ofFiles_eq_foldl]
  induction files using List.reverseRecOn with
  | nil => exact sound_empty
  | append_singleton files f ih =>
    rw [List.map_append, List.nodup_append'] at h
    rw [List.foldl_append]
    exact (ih h.1).addFile fun hmem => h.2.2 hmem (by simp)

/-- Every token of every file that a language reads is accounted for, and nothing else is
recorded. -/
structure Accounts (registry : Registry) (present : String → Bool) (files : List ExtractedFile)
    (r : Resolution) :
    Prop where
  /-- What means nothing is kept one for one and in order. -/
  unresolved : r.unresolved = files.flatMap (missingOf registry present)
  /-- What means the file itself is recorded nowhere. -/
  self : ∀ f ∈ files, ∀ language, f.language? registry = some language → ∀ token ∈ f.importTokens,
    resolve? language present token f.path = some f.path →
      (∀ e ∈ r.resolved, ¬(e.source = f.path ∧ e.token = token)) ∧
        ∀ u ∈ r.unresolved, ¬(u.source = f.path ∧ u.token = token)
  /-- What means another file is recorded once for that file, with the first token that means it. -/
  resolved : ∀ f ∈ files, ∀ language, f.language? registry = some language →
    ∀ token ∈ f.importTokens,
    ∀ target, resolve? language present token f.path = some target → target ≠ f.path →
      ∃ first, firstToken? language present f.path f.importTokens target = some first ∧
        r.resolved.filter (fun e => e.source = f.path ∧ e.target = target) =
          [⟨f.path, target, first⟩]
  /-- No edge comes from anywhere else. -/
  given : ∀ e ∈ r.resolved, ∃ f ∈ files, GivenBy registry present e f
  present : ∀ e ∈ r.resolved, present e.target = true
  hasEdge_iff : ∀ a b, r.graph.hasEdge a b = true ↔ ∃ e ∈ r.resolved, e.source = a ∧ e.target = b
  hasNode_iff : ∀ v, r.graph.hasNode v = true ↔
    (∃ f ∈ files, (f.language? registry).isSome ∧ v = f.path) ∨ ∃ e ∈ r.resolved, v = e.target

/-- Among edges between different pairs of files, the one between two given files stands alone. -/
theorem filter_pair (hnodup : (edges.map fun e => (e.source, e.target)).Nodup) {e : Edge}
    (he : e ∈ edges) :
    edges.filter (fun d => d.source = e.source ∧ d.target = e.target) = [e] := by
  induction edges with
  | nil => cases he
  | cons d edges ih =>
    rw [List.map_cons, List.nodup_cons] at hnodup
    rcases List.mem_cons.1 he with rfl | he
    · have hrest : edges.filter (fun d => d.source = e.source ∧ d.target = e.target) = [] := by
        rw [List.filter_eq_nil_iff]
        intro d hd hsame
        rw [decide_eq_true_eq] at hsame
        exact hnodup.1 (List.mem_map.2 ⟨d, hd, Prod.ext hsame.1 hsame.2⟩)
      rw [List.filter_cons_of_pos (by simp), hrest]
    · have hd : ¬(d.source = e.source ∧ d.target = e.target) := fun hsame =>
        hnodup.1 (List.mem_map.2 ⟨e, he, Prod.ext hsame.1.symm hsame.2.symm⟩)
      rw [List.filter_cons_of_neg (by simpa using hd), ih hnodup.2 he]

/-- What is unresolved comes from a token of its file that means nothing. -/
theorem resolve?_of_mem_missingOf {u : Unresolved} (hu : u ∈ missingOf registry present f)
    (hlanguage : f.language? registry = some language) :
    u.source = f.path ∧ resolve? language present u.token f.path = none := by
  rw [missingOf, hlanguage] at hu
  obtain ⟨token, -, htoken⟩ := List.mem_filterMap.1 hu
  rw [missing?] at htoken
  split at htoken
  · cases htoken
  · rename_i hnone
    obtain rfl := Option.some.inj htoken
    exact ⟨rfl, hnone⟩

theorem source_of_mem_missingOf {u : Unresolved} (hu : u ∈ missingOf registry present f) :
    u.source = f.path := by
  cases hlanguage : f.language? registry with
  | none =>
    rw [missingOf, hlanguage] at hu
    cases hu
  | some language => exact (resolve?_of_mem_missingOf hu hlanguage).1

/-- Files with different paths are accounted for token by token. -/
theorem ofFiles_accounts (registry : Registry) (present : String → Bool)
    {files : List ExtractedFile} (h : (files.map ExtractedFile.path).Nodup) :
      Accounts registry present files (ofFiles registry present files) := by
  have hsound : Sound registry present files (ofFiles registry present files) := sound_ofFiles h
  have hinj : ∀ f ∈ files, ∀ g ∈ files, f.path = g.path → f = g := List.inj_on_of_nodup_map h
  constructor
  case unresolved => exact hsound.unresolved
  case self =>
    intro f hf language hlanguage token htoken hself
    refine ⟨?_, ?_⟩
    · rintro e he ⟨hsource, rfl⟩
      obtain ⟨g, hg, _, hread, hpath, hne, hfirst⟩ := (hsound.mem_resolved e).1 he
      obtain rfl := hinj f hf g hg (hsource.symm.trans hpath)
      obtain rfl := Option.some.inj (hlanguage.symm.trans hread)
      have htarget := (resolve?_of_firstToken? hfirst).2
      exact hne (Option.some.inj (htarget.symm.trans hself))
    · rintro u hu ⟨hsource, rfl⟩
      rw [hsound.unresolved] at hu
      obtain ⟨g, hg, hu⟩ := List.mem_flatMap.1 hu
      obtain rfl := hinj f hf g hg (hsource.symm.trans (source_of_mem_missingOf hu))
      have hnone := (resolve?_of_mem_missingOf hu hlanguage).2
      exact Option.some_ne_none _ (hself.symm.trans hnone)
  case resolved =>
    intro f hf language hlanguage token htoken target htarget hne
    obtain ⟨first, hfirst⟩ := exists_firstToken? htoken htarget
    have hmem : (⟨f.path, target, first⟩ : Edge) ∈ (ofFiles registry present files).resolved :=
      (hsound.mem_resolved _).2 ⟨f, hf, language, hlanguage, rfl, hne, hfirst⟩
    exact ⟨first, hfirst, filter_pair hsound.nodup hmem⟩
  case given => exact fun e he => (hsound.mem_resolved e).1 he
  case present =>
    intro e he
    obtain ⟨f, -, _, -, -, -, hfirst⟩ := (hsound.mem_resolved e).1 he
    have htarget := (resolve?_of_firstToken? hfirst).2
    exact present_of_resolve? htarget
  case hasEdge_iff =>
    intro a b
    rw [Graph.hasEdge, List.contains_iff_mem, hsound.edges, List.mem_map]
    simp [Prod.ext_iff]
  case hasNode_iff =>
    intro v
    rw [Graph.hasNode, List.contains_iff_mem, hsound.nodes]

/-- A file of which only the path and the import tokens matter. -/
def importing (path : String) (internal external : List String) : ExtractedFile where
  source := ⟨path, none, [], "", false⟩
  extraction := ⟨[], ⟨"", none, ⟨internal, external⟩, [], false⟩⟩
  patternVersion := 1
  fromCache := false

/-- Two tokens for one target, one for the file itself, and one of each kind that means nothing. -/
theorem ofFiles_accounts_two :
    let files := [importing "a.py" [".b", ".gone"] ["b", "a", "numpy"], importing "b.py" [] ["a"],
      importing "c.txt" [".b"] []]
    let r := ofFiles .builtin (["a.py", "b.py", "c.txt"].contains ·) files
    (files.map ExtractedFile.path).Nodup ∧
      Accounts .builtin (["a.py", "b.py", "c.txt"].contains ·) files r ∧
      r.resolved = [⟨"a.py", "b.py", ".b"⟩, ⟨"b.py", "a.py", "a"⟩] ∧
      r.unresolved = [⟨"a.py", ".gone", .unresolved⟩, ⟨"a.py", "numpy", .external⟩] ∧
      r.graph.nodes = ["a.py", "b.py"] := by
  intro files r
  have hnodup : (files.map ExtractedFile.path).Nodup := by decide
  have hr : r = files.foldl (addFile .builtin (["a.py", "b.py", "c.txt"].contains ·)) empty :=
    ofFiles_eq_foldl _ _ files
  refine ⟨hnodup, ofFiles_accounts _ _ hnodup, ?_⟩
  rw [hr]
  decide +kernel

end Resolution

end Import

end CodeSurvey
