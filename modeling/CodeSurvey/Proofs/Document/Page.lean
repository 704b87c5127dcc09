import CodeSurvey.Proofs.Document.Script
import Mathlib.Algebra.GroupWithZero.Nat

/-!
# The entry points of a page

The entry points of a page are the sources that are found, and then the tags of scripts without the
letters `src=`. Where no source goes beyond its tag, the sources are those of the tags, so that a
tag has one entry point if and only if it has a source and these letters, or neither.
-/
namespace CodeSurvey.Document

open Pattern

/-! ### Sources and tags -/

/-- The sources of a page, with the offsets of their tags. -/
def sources (text : List Char) : List (Nat × Source) :=
  scan sourceAt? text

/-- What stands in the tags of the scripts of a page, with their offsets. -/
def tags (text : List Char) : List (Nat × List Char) :=
  scan tagAt? text

/-- The source ends in front of the end of a tag. -/
def Source.IsEnclosed (source : Source) : Prop :=
  '>' ∉ source.value ∧ '>' ∈ source.rest

instance (source : Source) : Decidable source.IsEnclosed :=
  inferInstanceAs (Decidable (_ ∧ _))

/-- The last source of a tag: what stands in front of it, and its value. -/
def tagSource? (inside : List Char) : Option (List Char × List Char) :=
  (lastSource? [] inside).map fun found => (found.1, found.2.1)

variable {cs name inside tail rest : List Char}

theorem not_mem_of_name (h : Folded "<script".toList name) : '>' ∉ name :=
  not_mem_of_folded h rfl

theorem length_of_name (h : Folded "<script".toList name) : name.length = 7 :=
  (List.Forall₂.length_eq h).symm

/-- A text has one first end of a tag. -/
theorem split_unique {inside' tail' : List Char} (hinside : '>' ∉ inside) (hinside' : '>' ∉ inside')
    (htail : tail.head?.all (· == '>') = true) (htail' : tail'.head?.all (· == '>') = true)
    (h : inside ++ tail = inside' ++ tail') : inside = inside' ∧ tail = tail' := by
  obtain ⟨more, rfl, rfl⟩ := exists_inside htail hinside' h
  cases more with
  | nil => exact ⟨List.append_nil _, rfl⟩
  | cons c more =>
    obtain rfl : c = '>' := by simpa using htail'
    simp at hinside

/-- A proof about a page goes from what follows a tag to the tag. -/
theorem tag_induction {P : List Char → Prop} (last : ∀ cs, '>' ∉ cs → P cs)
    (skip : ∀ c cs, opening? (c :: cs) = none → P cs → P (c :: cs))
    (tag : ∀ cs name inside rest, Opening cs name inside ('>' :: rest) → P rest → P cs)
    (cs : List Char) : P cs := by
  generalize hn : cs.length = n
  induction n using Nat.strongRecOn generalizing cs with
  | _ n ih =>
    subst hn
    by_cases hmem : '>' ∈ cs
    · obtain ⟨c, more, rfl⟩ := List.exists_cons_of_ne_nil (List.ne_nil_of_mem hmem)
      cases hopen : opening? (c :: more) with
      | none => exact skip c more hopen (ih more.length (by simp) more rfl)
      | some opened =>
        obtain ⟨inside, tail⟩ := opened
        obtain ⟨name, hopening⟩ := opening?_eq_some_iff.1 hopen
        rw [hopening.text, List.mem_append, List.mem_append] at hmem
        have htail := (hmem.resolve_left (not_mem_of_name hopening.name)).resolve_left
          hopening.inside
        cases tail with
        | nil => cases htail
        | cons d rest =>
          obtain rfl : d = '>' := by simpa using hopening.tail
          refine tag _ name inside rest hopening (ih rest.length ?_ rest rfl)
          rw [hopening.text]
          simp only [List.length_append, List.length_cons]
          omega
    · exact last cs hmem

theorem sourceAt?_reads {source : Source} (h : sourceAt? cs = some (source, rest)) :
    source.rest = rest ∧ ∃ read, read ≠ [] ∧ cs = read ++ rest := by
  obtain ⟨name, inside, tail, front, hopening, hlast, hsource⟩ := sourceAt?_eq_some_iff.1 h
  obtain ⟨c, here, rfl, hvalue, -⟩ := lastSource?_eq_some_iff.1 hlast
  obtain ⟨read, q, -, -, -, -, heq⟩ := valueAt?_eq_some_iff.1 hvalue
  refine ⟨by rw [hsource], name ++ (front ++ (read ++ (source.value ++ [q]))), by simp, ?_⟩
  rw [hopening.text]
  simp [heq]

/-- Where no source follows in a tag, none is found up to the end of the tag. -/
theorem scanFrom_sourceAt?_pass {part : List Char} (hpart : '>' ∉ part)
    (h : ∀ name inside, name ++ inside <:+ part → name.length = 7 →
      lastSource? ('>' :: rest) inside = none)
    (offset : Nat) : scanFrom sourceAt? offset 0 (part ++ '>' :: rest) =
      scanFrom sourceAt? (offset + Text.size (part ++ ['>'])) 0 rest := by
  have hnone : ∀ more, more ≠ [] → more <:+ part ++ ['>'] → sourceAt? (more ++ rest) = none := by
    intro more hne hmore
    obtain rfl | ⟨more, rfl, hsuffix⟩ := List.suffix_concat_iff.1 hmore
    · exact absurd rfl hne
    · cases hsource : sourceAt? (more ++ ['>'] ++ rest) with
      | none => rfl
      | some found =>
        obtain ⟨name, inside, tail, front, hopening, hlast, -⟩ := sourceAt?_eq_some_iff.1 hsource
        have hmem : '>' ∉ name ++ inside := by simp [not_mem_of_name hopening.name, hopening.inside]
        have hsplit : name ++ inside = more ∧ tail = '>' :: rest := by
          refine split_unique hmem (fun hmem => hpart (hsuffix.subset hmem)) hopening.tail rfl ?_
          rw [List.append_assoc, ← hopening.text, List.append_assoc]
          rfl
        obtain ⟨rfl, rfl⟩ := hsplit
        rw [h name inside hsuffix (length_of_name hopening.name)] at hlast
        cases hlast
  rw [← scanFrom_pass hnone, List.append_assoc]
  rfl

theorem scanFrom_tagAt? (h : Opening cs name inside ('>' :: rest)) (offset : Nat) :
    scanFrom tagAt? offset 0 cs =
      (offset, inside) :: scanFrom tagAt? (offset + Text.size (name ++ (inside ++ ['>'])))
        0 rest := by
  have htext : cs = name ++ (inside ++ ['>']) ++ rest := by
    rw [h.text]
    simp
  have htag : tagAt? (name ++ (inside ++ ['>']) ++ rest) = some (inside, rest) := by
    rw [← htext]
    exact tagAt?_eq_some_iff.2 ⟨name, h⟩
  rw [htext]
  exact scanFrom_read (by simp) htag offset

/-- A tag without a source. -/
theorem scanFrom_sourceAt?_none (h : Opening cs name inside ('>' :: rest))
    (hnone : lastSource? ('>' :: rest) inside = none) (offset : Nat) :
    scanFrom sourceAt? offset 0 cs =
      scanFrom sourceAt? (offset + Text.size (name ++ (inside ++ ['>']))) 0 rest := by
  have hmem : '>' ∉ name ++ inside := by simp [not_mem_of_name h.name, h.inside]
  have hlater : ∀ name' inside', name' ++ inside' <:+ name ++ inside → name'.length = 7 →
      lastSource? ('>' :: rest) inside' = none := by
    intro name' inside' hsuffix hlength
    have hle := hsuffix.length_le
    rw [List.length_append, List.length_append, hlength, length_of_name h.name] at hle
    have hinside : inside' <:+ inside := List.suffix_of_suffix_length_le
      ((List.suffix_append name' inside').trans hsuffix) (List.suffix_append name inside) (by omega)
    exact lastSource?_of_suffix hnone hinside
  rw [h.text, ← List.append_assoc, scanFrom_sourceAt?_pass hmem hlater, List.append_assoc]

theorem sourceAt?_of_lastSource? {front value behind : List Char} (h : Opening cs name inside tail)
    (hlast : lastSource? tail inside = some (front, value, behind)) :
    sourceAt? cs = some (⟨front.dropWhile Text.isBlank, value, behind⟩, behind) :=
  sourceAt?_eq_some_iff.2 ⟨name, inside, tail, front, h, hlast, rfl⟩

theorem mem_scanFrom_sourceAt? {front value behind : List Char} (h : Opening cs name inside tail)
    (hlast : lastSource? tail inside = some (front, value, behind)) (offset : Nat) :
    (offset, ⟨front.dropWhile Text.isBlank, value, behind⟩) ∈ scanFrom sourceAt? offset 0 cs := by
  have hsource := sourceAt?_of_lastSource? h hlast
  obtain ⟨-, read, hne, rfl⟩ := sourceAt?_reads hsource
  rw [scanFrom_read hne hsource]
  exact List.mem_cons_self

/-- A tag with a source that does not go beyond it. -/
theorem scanFrom_sourceAt?_some {front value behind : List Char}
    (h : Opening cs name inside ('>' :: rest))
    (hlast : lastSource? ('>' :: rest) inside = some (front, value, behind)) (hvalue : '>' ∉ value)
    (offset : Nat) :
    (∃ more, lastSource? [] inside = some (front, value, more)) ∧ scanFrom sourceAt? offset 0 cs =
      (offset, ⟨front.dropWhile Text.isBlank, value, behind⟩) ::
        scanFrom sourceAt? (offset + Text.size (name ++ (inside ++ ['>']))) 0 rest := by
  have hsource := sourceAt?_of_lastSource? h hlast
  obtain ⟨more, hinside, rfl, hlater⟩ := lastSource?_nil_eq_some rfl hlast hvalue
  obtain ⟨-, read, hne, hread⟩ := sourceAt?_reads hsource
  have hwhole : read ++ (more ++ ['>']) = name ++ (inside ++ ['>']) := by
    have htext : (read ++ (more ++ ['>'])) ++ rest = (name ++ (inside ++ ['>'])) ++ rest := by
      simpa using hread.symm.trans h.text
    exact List.append_cancel_right htext
  have hmem : '>' ∉ more := by
    have hinside : (read ++ more) ++ ['>'] = (name ++ inside) ++ ['>'] := by simpa using hwhole
    have hnone : '>' ∉ name ++ inside := by simp [not_mem_of_name h.name, h.inside]
    rw [← List.append_cancel_right hinside, List.mem_append, not_or] at hnone
    exact hnone.2
  have hpass := scanFrom_sourceAt?_pass hmem (fun name' inside' hsuffix _ =>
    lastSource?_of_suffix hlater ((List.suffix_append name' inside').trans hsuffix))
    (offset + Text.size read)
  refine ⟨⟨more, hinside⟩, ?_⟩
  rw [← hwhole, Text.size_append, ← Nat.add_assoc, ← hpass, hread]
  rw [hread] at hsource
  exact scanFrom_read hne hsource offset

theorem scanFrom_sourceAt?_eq (cs : List Char) (offset : Nat)
    (h : ∀ found ∈ scanFrom sourceAt? offset 0 cs, found.2.IsEnclosed) :
    (scanFrom sourceAt? offset 0 cs).map
      (fun found => (found.1, found.2.attributes, found.2.value)) =
      (scanFrom tagAt? offset 0 cs).filterMap fun tag => (tagSource? tag.2).map fun found =>
        (tag.1, found.1.dropWhile Text.isBlank, found.2) := by
  induction cs using tag_induction generalizing offset with
  | last cs hcs =>
    have htags : scanFrom tagAt? offset 0 cs = [] := by
      apply List.eq_nil_iff_forall_not_mem.2
      intro tag htag
      obtain ⟨here, rest, hhere, hread⟩ := exists_read_of_mem_scanFrom htag
      obtain ⟨name, hopening⟩ := tagAt?_eq_some_iff.1 hread
      exact hcs (hhere.subset (by simp [hopening.text]))
    have hsources : scanFrom sourceAt? offset 0 cs = [] := by
      apply List.eq_nil_iff_forall_not_mem.2
      intro found hfound
      obtain ⟨here, rest, hhere, hread⟩ := exists_read_of_mem_scanFrom hfound
      obtain ⟨hrest, read, -, rfl⟩ := sourceAt?_reads hread
      have hmem := (h found hfound).2
      rw [hrest] at hmem
      exact hcs (hhere.subset (List.mem_append_right read hmem))
    rw [htags, hsources]
    rfl
  | skip c cs hopen ih =>
    have htag : tagAt? (c :: cs) = none := by
      rw [tagAt?, hopen]
      rfl
    have hsource : sourceAt? (c :: cs) = none := by
      rw [sourceAt?, hopen]
      rfl
    rw [scanFrom, hsource] at h ⊢
    rw [scanFrom, htag]
    exact ih _ h
  | tag cs name inside rest hopening ih =>
    rw [scanFrom_tagAt? hopening]
    cases hlast : lastSource? ('>' :: rest) inside with
    | none =>
      have htag : tagSource? inside = none := by
        rw [tagSource?, lastSource?_nil_eq_none hlast]
        rfl
      rw [scanFrom_sourceAt?_none hopening hlast] at h ⊢
      rw [List.filterMap_cons, htag]
      exact ih _ h
    | some found =>
      obtain ⟨front, value, behind⟩ := found
      have hvalue := (h _ (mem_scanFrom_sourceAt? hopening hlast offset)).1
      obtain ⟨⟨more, hinside⟩, hsources⟩ := scanFrom_sourceAt?_some hopening hlast hvalue offset
      have htag : tagSource? inside = some (front, value) := by
        rw [tagSource?, hinside]
        rfl
      rw [hsources] at h ⊢
      rw [List.filterMap_cons, htag, List.map_cons,
        ih _ fun found hfound => h found (List.mem_cons_of_mem _ hfound)]
      rfl

/-! ### Entry points -/

/-- The tag has the letters `src=`. -/
def namesSource (inside : List Char) : Bool :=
  Text.hasSub "src=".toList (Text.lower inside)

/-- A script with a source. -/
def externalEntry (path : String) (text : List Char) (offset : Nat) (attributes value : List Char) :
    EntryPoint :=
  (EntryPoint.new .script (String.ofList value) path
    ((Text.LineIndex.ofText text).lineOf offset + 1)).withTrigger
    ((if carriesModule attributes then "ES Module: " else "Script: ") ++ String.ofList value)

/-- Scripts without a source, numbered in order. -/
def inlineEntries (path : String) (text : List Char) (tags : List (Nat × List Char)) :
    List EntryPoint :=
  tags.zipIdx.map fun numbered =>
    (EntryPoint.new .script ("inline-script-" ++ toString (numbered.2 + 1)) path
      ((Text.LineIndex.ofText text).lineOf numbered.1.1 + 1)).withTrigger
      (if carriesModule numbered.1.2 then "Inline module" else "Inline script")

def sourceEntries (path : String) (text : List Char) : List EntryPoint :=
  (sources text).map fun found => externalEntry path text found.1 found.2.attributes found.2.value

/-- The entry point of a tag for its source, where only what stands in front of the source tells of
a module. -/
def entryOfTag? (path : String) (text : List Char) (tag : Nat × List Char) : Option EntryPoint :=
  (tagSource? tag.2).map fun found => externalEntry path text tag.1 found.1 found.2

/-- How many entry points a tag has. -/
def entryCount (inside : List Char) : Nat :=
  (tagSource? inside).toList.length + (if namesSource inside then 0 else 1)

/-- The tag has a source and the letters `src=`, or neither, and does not say `type="module"` behind
its source only. -/
def IsPlain (inside : List Char) : Prop :=
  (tagSource? inside).isSome = namesSource inside ∧
    ∀ found ∈ tagSource? inside, carriesModule found.1 = carriesModule inside

/-- One entry point for each tag: for its source if it has one, and as an inline script otherwise.
The whole tag tells of a module. -/
def entryPerTag (path : String) (text : List Char) : List EntryPoint :=
  (tags text).filterMap (fun tag => (tagSource? tag.2).map fun found =>
    externalEntry path text tag.1 tag.2 found.2) ++
    inlineEntries path text ((tags text).filter fun tag => (tagSource? tag.2).isNone)

section

variable (path : String) (text : List Char)

theorem map_sourceEntry :
    (scriptSource.findAll text).map (sourceEntry (Text.LineIndex.ofText text) path) =
      sourceEntries path text := by
  rw [sourceEntries, sources, ← scriptSource_readBy.findAll_eq, List.map_map]
  apply List.map_congr_left
  intro m _
  simp only [sourceEntry, occurs_moduleType]
  rfl

/-- The sources that are found come first, and then the tags without the letters `src=`. -/
theorem pageEntries_eq :
    pageEntries path text =
      sourceEntries path text ++ inlineEntries path text
        ((tags text).filter fun tag => !namesSource tag.2) := by
  rw [pageEntries, map_sourceEntry, tags, ← scriptTag_readBy.findAll_eq, List.filter_map,
    inlineEntries, List.zipIdx_map, List.map_map]
  simp only [occurs_moduleType]
  rfl

theorem externalEntry_dropWhile (offset : Nat) (attributes value : List Char) :
    externalEntry path text offset (attributes.dropWhile Text.isBlank) value =
      externalEntry path text offset attributes value := by
  rw [externalEntry, externalEntry, carriesModule_dropWhile]

theorem sourceEntries_eq (h : ∀ found ∈ sources text, found.2.IsEnclosed) :
    sourceEntries path text = (tags text).filterMap (entryOfTag? path text) := by
  have hsources := congrArg (List.map fun found : Nat × List Char × List Char =>
    externalEntry path text found.1 found.2.1 found.2.2) (scanFrom_sourceAt?_eq text 0 h)
  rw [List.map_map, List.map_filterMap] at hsources
  rw [sourceEntries]
  refine hsources.trans (List.filterMap_congr fun tag _ => ?_)
  rw [entryOfTag?, Option.map_map]
  exact Option.map_congr fun found _ => externalEntry_dropWhile path text tag.1 found.1 found.2

theorem length_inlineEntries (tags : List (Nat × List Char)) :
    (inlineEntries path text tags).length = tags.length := by
  rw [inlineEntries, List.length_map, List.length_zipIdx]

theorem length_entries (tags : List (Nat × List Char)) :
    (tags.filterMap (entryOfTag? path text)).length +
      (tags.filter fun tag => !namesSource tag.2).length =
      (tags.map fun tag => entryCount tag.2).sum := by
  induction tags with
  | nil => rfl
  | cons tag tags ih =>
    rw [List.map_cons, List.sum_cons, ← ih, List.filterMap_cons, List.filter_cons, entryOfTag?,
      entryCount]
    cases tagSource? tag.2 <;> cases namesSource tag.2 <;> simp <;> omega

theorem entryCount_eq_one_iff (inside : List Char) :
    entryCount inside = 1 ↔ (tagSource? inside).isSome = namesSource inside := by
  rw [entryCount]
  cases tagSource? inside <;> cases namesSource inside <;> simp

/-- Where the two tests agree on every tag, and no tag says `type="module"` behind its source only,
each tag has its one entry point. -/
theorem entries_of_isPlain (h : ∀ tag ∈ tags text, IsPlain tag.2) :
    (tags text).filterMap (entryOfTag? path text) ++
      inlineEntries path text ((tags text).filter fun tag => !namesSource tag.2) =
        entryPerTag path text := by
  have hexternal : (tags text).filterMap (entryOfTag? path text) = (tags text).filterMap fun tag =>
      (tagSource? tag.2).map fun found => externalEntry path text tag.1 tag.2 found.2 := by
    refine List.filterMap_congr fun tag htag => Option.map_congr fun found hfound => ?_
    rw [externalEntry, externalEntry, (h tag htag).2 found hfound]
  have hinline : (tags text).filter (fun tag => !namesSource tag.2) =
      (tags text).filter fun tag => (tagSource? tag.2).isNone := by
    refine List.filter_congr fun tag htag => ?_
    rw [← (h tag htag).1, Option.not_isSome]
  rw [hexternal, hinline, entryPerTag]

example : IsPlain " type = 'module' src=\"a.js\"".toList :=
  ⟨by decide, by decide⟩

end

/-- The entry points of a page, whatever its text: the sources that are found, and then the tags
without the letters `src=`. Where no source goes beyond its tag, the sources are those of the tags,
and a tag has one entry point if and only if it has a source and these letters, or neither. -/
theorem tag_has_one_entry_iff (path : String) (text : List Char) :
    pageEntries path text =
        sourceEntries path text ++ inlineEntries path text
          ((tags text).filter fun tag => !namesSource tag.2) ∧
      (∀ tag ∈ tags text, entryCount tag.2 = 1 ↔ (tagSource? tag.2).isSome = namesSource tag.2) ∧
      ((∀ found ∈ sources text, found.2.IsEnclosed) →
        sourceEntries path text = (tags text).filterMap (entryOfTag? path text) ∧
        (pageEntries path text).length = ((tags text).map fun tag => entryCount tag.2).sum ∧
        ((∀ tag ∈ tags text, IsPlain tag.2) → pageEntries path text = entryPerTag path text)) := by
  refine ⟨pageEntries_eq path text, fun tag _ => entryCount_eq_one_iff tag.2, fun henclosed => ?_⟩
  have hsources := sourceEntries_eq path text henclosed
  refine ⟨hsources, ?_, fun hplain => ?_⟩
  · rw [pageEntries_eq, hsources, List.length_append, length_inlineEntries, length_entries]
  · rw [pageEntries_eq, hsources, entries_of_isPlain path text hplain]

/-- White space in front of the equals sign hides the source from the second test: one tag has two
entry points. -/
theorem two_entries_of_spaced_source :
    (tags "<script src = \"a.js\"></script>".toList).length = 1 ∧
      (pageEntries "web/index.html" "<script src = \"a.js\"></script>".toList).length = 2 := by
  have henclosed : ∀ found ∈ sources "<script src = \"a.js\"></script>".toList,
      found.2.IsEnclosed := by decide
  refine ⟨by decide, ?_⟩
  rw [((tag_has_one_entry_iff "web/index.html" _).2.2 henclosed).2.1]
  decide

end CodeSurvey.Document
