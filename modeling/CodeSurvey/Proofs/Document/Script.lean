import CodeSurvey.Proofs.Document.Attribute

/-!
# The scripts of a page

A tag of a script is its name and what stands in front of the first `>`. One pattern looks for tags
with a source, of which it takes the last one, and may go beyond the tag for the end of its value;
the other looks for tags as they are. Each matches just what a reader reads.
-/
namespace CodeSurvey.Document

open Pattern

/-! ### Tags -/

/-- A tag of a script is opened: its name, what stands in the tag, and what follows. -/
structure Opening (cs name inside tail : List Char) : Prop where
  text : cs = name ++ (inside ++ tail)
  name : Folded "<script".toList name
  start : inside.head?.all Text.isBlank = true
  inside : '>' ∉ inside
  tail : tail.head?.all (· == '>') = true

/-- What stands in the tag of a script up to the first `>`, and what follows. -/
def opening? (cs : List Char) : Option (List Char × List Char) :=
  (afterFolded? "<script".toList cs).bind fun rest =>
    if (rest.takeWhile (· != '>')).head?.all Text.isBlank then
      some (rest.takeWhile (· != '>'), rest.dropWhile (· != '>'))
    else none

/-- What stands in a tag, and what follows the tag. -/
def tagAt? (cs : List Char) : Option (List Char × List Char) :=
  (opening? cs).bind fun opened => (afterChar? (· == '>') opened.2).map (opened.1, ·)

/-- A source that was found in a tag: the attributes in front of it, its value, and the text behind
the value. -/
structure Source where
  attributes : List Char
  value : List Char
  rest : List Char

def sourceAt? (cs : List Char) : Option (Source × List Char) :=
  (opening? cs).bind fun opened => (lastSource? opened.2 opened.1).map fun found =>
    (⟨found.1.dropWhile Text.isBlank, found.2.1, found.2.2⟩, found.2.2)

variable {cs name inside tail rest : List Char} {s t : Progress}

theorem takeWhile_inside (rest : List Char) :
    '>' ∉ rest.takeWhile (· != '>') ∧ (rest.dropWhile (· != '>')).head?.all (· == '>') = true := by
  refine ⟨not_mem_of_class rfl fun c hc => List.mem_takeWhile_imp hc, ?_⟩
  cases hdrop : rest.dropWhile (· != '>') with
  | nil => rfl
  | cons c behind =>
    obtain ⟨-, -, hc, -⟩ := dropWhile_eq_cons_iff.1 hdrop
    simpa using hc

theorem opening?_eq_some_iff :
    opening? cs = some (inside, tail) ↔ ∃ name, Opening cs name inside tail := by
  rw [opening?, Option.bind_eq_some_iff]
  constructor
  · rintro ⟨rest, hname, h⟩
    obtain ⟨name, hfolded, rfl⟩ := afterFolded?_eq_some_iff.1 hname
    split at h
    · rename_i hstart
      obtain ⟨rfl, rfl⟩ := Prod.mk.inj (Option.some.inj h)
      obtain ⟨hinside, htail⟩ := takeWhile_inside rest
      exact ⟨name, by rw [List.takeWhile_append_dropWhile], hfolded, hstart, hinside, htail⟩
    · cases h
  · rintro ⟨name, rfl, hname, hstart, hinside, htail⟩
    refine ⟨inside ++ tail, afterFolded?_eq_some_iff.2 ⟨name, hname, rfl⟩, ?_⟩
    have hall : ∀ c ∈ inside, (c != '>') = true :=
      fun c hc => bne_iff_ne.2 (ne_of_mem_of_not_mem hc hinside)
    have hstop : tail.takeWhile (· != '>') = [] ∧ tail.dropWhile (· != '>') = tail := by
      cases tail with
      | nil => exact ⟨rfl, rfl⟩
      | cons c tail =>
        obtain rfl : c = '>' := by simpa using htail
        exact ⟨rfl, rfl⟩
    rw [List.takeWhile_append_of_pos hall, List.dropWhile_append_of_pos hall, hstop.1, hstop.2,
      List.append_nil, if_pos hstart]

theorem tagAt?_eq_some_iff :
    tagAt? cs = some (inside, rest) ↔ ∃ name, Opening cs name inside ('>' :: rest) := by
  rw [tagAt?, Option.bind_eq_some_iff]
  constructor
  · rintro ⟨opened, hopen, h⟩
    obtain ⟨behind, hend, heq⟩ := Option.map_eq_some_iff.1 h
    obtain ⟨rfl, rfl⟩ := Prod.mk.inj heq
    obtain ⟨c, hc, htail⟩ := afterChar?_eq_some_iff.1 hend
    obtain rfl : c = '>' := beq_iff_eq.1 hc
    rw [← htail]
    exact opening?_eq_some_iff.1 hopen
  · intro h
    exact ⟨_, opening?_eq_some_iff.2 h, rfl⟩

theorem sourceAt?_eq_some_iff {source : Source} :
    sourceAt? cs = some (source, rest) ↔ ∃ name inside tail front, Opening cs name inside tail ∧
      lastSource? tail inside = some (front, source.value, rest) ∧
      source = ⟨front.dropWhile Text.isBlank, source.value, rest⟩ := by
  rw [sourceAt?, Option.bind_eq_some_iff]
  constructor
  · rintro ⟨⟨inside, tail⟩, hopen, h⟩
    obtain ⟨⟨front, value, behind⟩, hlast, heq⟩ := Option.map_eq_some_iff.1 h
    obtain ⟨rfl, rfl⟩ := Prod.mk.inj heq
    obtain ⟨name, hopening⟩ := opening?_eq_some_iff.1 hopen
    exact ⟨name, inside, tail, front, hopening, hlast, rfl⟩
  · rintro ⟨name, inside, tail, front, hopening, hlast, heq⟩
    refine ⟨_, opening?_eq_some_iff.2 ⟨name, hopening⟩, ?_⟩
    rw [hlast, Option.map_some, heq]

/-! ### The patterns of tags -/

/-- White space, and then the rest of a tag. -/
theorem leads_blank_run {d : Char} {more : List Char} (hd : Text.isBlank d = true)
    (hinside : '>' ∉ d :: more) (hs : s.cursor.rest = d :: more ++ '>' :: rest) :
    (blank ++ .run (· != '>')).Leads s (s.after (d :: more) ('>' :: rest)) := by
  have hall : ∀ c ∈ (d :: more).dropWhile Text.isBlank, (c != '>') = true := fun c hc =>
    bne_iff_ne.2 (ne_of_mem_of_not_mem ((List.dropWhile_sublist _).subset hc) hinside)
  have hsplit := List.takeWhile_append_dropWhile (p := Text.isBlank) (l := d :: more)
  have hne : (d :: more).takeWhile Text.isBlank ≠ [] := by simp [hd]
  have hblank := leads_run1 (s := s) hne (fun c hc => List.mem_takeWhile_imp hc)
    (any_head?_dropWhile rfl (d :: more) rest) (by rw [hs, ← List.append_assoc, hsplit])
  have hothers := leads_run (s := s.after ((d :: more).takeWhile Text.isBlank)
    ((d :: more).dropWhile Text.isBlank ++ '>' :: rest)) hall rfl rfl
  rw [Progress.after_after, hsplit] at hothers
  exact hblank.seq hothers

theorem scriptTag_readBy : scriptTag.ReadBy (fun m => m.text "attributes") tagAt? where
  fails := by
    intro cs h offset prior
    apply List.eq_nil_iff_forall_not_mem.2
    intro t ht
    obtain ⟨u, hu, hend⟩ := List.mem_flatMap.1 ht
    obtain ⟨v, hname, hu⟩ := List.mem_flatMap.1 hu
    obtain ⟨name, hname, hfolded⟩ := folded_of_mem_ways hname
    obtain ⟨-, c, hend, hc⟩ := reads_of_mem_ways_char hend
    obtain rfl : c = '>' := beq_iff_eq.1 hc
    have hinside : ∃ inside, v.cursor.Reads inside u.cursor ∧ inside.head?.all Text.isBlank = true ∧
        '>' ∉ inside := by
      rcases List.mem_append.1 hu with hu | hu
      · obtain ⟨w, hw, rfl⟩ := List.mem_map.1 hu
        obtain ⟨x, hblank, hrun⟩ := List.mem_flatMap.1 hw
        obtain ⟨y, hfirst, hmore⟩ := List.mem_flatMap.1 hblank
        obtain ⟨-, d, hfirst, hd⟩ := reads_of_mem_ways_char hfirst
        obtain ⟨-, more, hmore, hall⟩ := reads_of_mem_ways_run hmore
        obtain ⟨-, others, hrun, hothers⟩ := reads_of_mem_ways_run hrun
        have hblank : '>' ∉ d :: more := not_mem_of_class rfl (List.forall_mem_cons.2 ⟨hd, hall⟩)
        refine ⟨_, (hfirst.trans hmore).trans hrun, hd, ?_⟩
        rw [List.mem_append, not_or]
        exact ⟨hblank, not_mem_of_class rfl hothers⟩
      · obtain rfl := List.mem_singleton.1 hu
        exact ⟨[], .refl _, rfl, by simp⟩
    obtain ⟨inside, hinside, hstart, hmem⟩ := hinside
    have htag : tagAt? cs = some (inside, t.cursor.rest) := by
      refine tagAt?_eq_some_iff.2 ⟨name, ?_, hfolded, hstart, hmem, rfl⟩
      rw [show cs = _ from hname.rest, hinside.rest, hend.rest]
      rfl
    rw [htag] at h
    cases h
  shorter := by
    intro cs inside rest h
    obtain ⟨name, hopening⟩ := tagAt?_eq_some_iff.1 h
    rw [hopening.text]
    simp only [List.length_append, List.length_cons]
    omega
  leads := by
    intro cs inside rest h offset prior
    obtain ⟨name, hopening⟩ := tagAt?_eq_some_iff.1 h
    have hname := leads_litFolded (s := ⟨⟨offset, prior, cs⟩, []⟩) hopening.name hopening.text
    cases inside with
    | nil =>
      have hnone := Fails.opt (p := .group "attributes" (blank ++ .run (· != '>')))
        (s := Progress.after ⟨⟨offset, prior, cs⟩, []⟩ name ('>' :: rest)) rfl
      exact ⟨_, (hname.seq hnone).seq (leads_one '>' rfl), rfl, rfl⟩
    | cons d more =>
      generalize hs : Progress.after ⟨⟨offset, prior, cs⟩, []⟩ name (d :: more ++ '>' :: rest) =
        s at hname
      have hrest : s.cursor.rest = d :: more ++ '>' :: rest := by rw [← hs]; rfl
      have hinside := ((leads_blank_run hopening.start hopening.inside hrest).group
        "attributes").alt .done
      have hreads : s.cursor.Reads (d :: more) (s.after (d :: more) ('>' :: rest)).cursor :=
        ⟨hrest, rfl⟩
      exact ⟨_, (hname.seq hinside).seq (leads_one '>' rfl), rfl, hreads.text⟩

theorem ways_scriptSource (s : Progress) :
    ways scriptSource s = ways (.seq (litFolded "<script") (.seq blank
      (.seq (.group "attributes" (.run (· != '>'))) sourceValue))) s := by
  simp only [scriptSource, sourceValue, assignment, append_eq_seq, ways, List.flatMap_assoc]
  rfl

/-- A source starts in front of the end of its tag. -/
theorem valueAt?_eq_none_of_suffix {here : List Char} (htail : tail.head?.all (· == '>') = true)
    (h : lastSource? tail inside = none) (hhere : here <:+ inside) :
      valueAt? "src" (here ++ tail) = none := by
  cases here with
  | nil =>
    cases tail with
    | nil => rfl
    | cons c tail => exact valueAt?_eq_none (.inr (by simpa using htail)) tail
  | cons c here => exact lastSource?_eq_none_iff.1 h (c :: here) (by simp) hhere

/-- The name of a tag and white space, and then the rest. -/
theorem leads_opening {blanks : List Char} {q : Pattern} (hname : Folded "<script".toList name)
    (hne : blanks ≠ []) (hblank : ∀ c ∈ blanks, Text.isBlank c = true)
    (hstop : rest.head?.any Text.isBlank = false) (hs : s.cursor.rest = name ++ (blanks ++ rest))
    (hq : q.Leads (s.after (name ++ blanks) rest) t) :
    (Pattern.seq (litFolded "<script") (.seq blank q)).Leads s t := by
  have hrun := leads_run1 (s := s.after name (blanks ++ rest)) hne hblank hstop rfl
  rw [Progress.after_after] at hrun
  exact (leads_litFolded hname hs).seq (hrun.seq hq)

/-- The attributes of a tag are taken up to its last source. -/
theorem leads_attributes {attributes here value : List Char} {c : Char} (hinside : '>' ∉ attributes)
    (hs : s.cursor.rest = attributes ++ c :: (here ++ tail))
    (htail : tail.head?.all (· == '>') = true)
    (hvalue : valueAt? "src" (c :: (here ++ tail)) = some (value, rest))
    (hlater : lastSource? tail here = none) :
    ∃ t, (Pattern.seq (.group "attributes" (.run (· != '>'))) sourceValue).Leads s t ∧
      t.cursor.rest = rest ∧
      ∀ whole, (Match.mk whole t.groups).text "attributes" = attributes ∧
        (Match.mk whole t.groups).text "source" = value := by
  have hall : ∀ d ∈ attributes, (d != '>') = true :=
    fun d hd => bne_iff_ne.2 (ne_of_mem_of_not_mem hd hinside)
  obtain ⟨t, hleads, hrest, capture, hcapture, hgroups⟩ := leads_sourceValue
    (s := ⟨(s.after attributes (c :: (here ++ tail))).cursor,
      ("attributes", ⟨s.cursor, (s.after attributes (c :: (here ++ tail))).cursor⟩) :: s.groups⟩)
        hvalue
  -- behind the last source, and up to the end of the tag, no other one starts
  have hlonger : ∀ (u : Progress) (more : List Char), more ≠ [] → (∀ x ∈ more, (x != '>') = true) →
      c :: (here ++ tail) = more ++ u.cursor.rest → sourceValue.Fails u := by
    intro u more hne hmore heq
    obtain ⟨d, more, rfl⟩ := List.exists_cons_of_ne_nil hne
    obtain ⟨hd, hmore⟩ := List.forall_mem_cons.1 hmore
    obtain ⟨behind, rfl, hbehind⟩ := exists_inside htail (not_mem_of_class rfl hmore)
      (List.cons.inj heq).2
    apply fails_sourceValue
    rw [hbehind]
    exact valueAt?_eq_none_of_suffix htail hlater (List.suffix_append _ _)
  have hreads : s.cursor.Reads attributes (s.after attributes (c :: (here ++ tail))).cursor :=
    ⟨hs, rfl⟩
  refine ⟨t, leads_group_run_seq "attributes" hall hs hleads hlonger, hrest, fun whole => ⟨?_, ?_⟩⟩
  · rw [Match.text, Match.group?, hgroups, List.lookup_cons, List.lookup_cons]
    exact hreads.text
  · rw [Match.text, Match.group?, hgroups, List.lookup_cons]
    exact hcapture

theorem scriptSource_readBy :
    scriptSource.ReadBy (fun m => ⟨m.text "attributes", m.text "source", m.whole.stop.rest⟩)
      sourceAt? where
  fails := by
    intro cs h offset prior
    apply List.eq_nil_iff_forall_not_mem.2
    intro t ht
    rw [ways_scriptSource] at ht
    obtain ⟨u, hname, ht⟩ := List.mem_flatMap.1 ht
    obtain ⟨v, hblank, ht⟩ := List.mem_flatMap.1 ht
    obtain ⟨w, hgroup, ht⟩ := List.mem_flatMap.1 ht
    obtain ⟨x, hrun, rfl⟩ := List.mem_map.1 hgroup
    obtain ⟨y, hfirst, hmore⟩ := List.mem_flatMap.1 hblank
    obtain ⟨name, hname, hfolded⟩ := folded_of_mem_ways hname
    obtain ⟨-, d, hfirst, hd⟩ := reads_of_mem_ways_char hfirst
    obtain ⟨-, more, hmore, hall⟩ := reads_of_mem_ways_run hmore
    obtain ⟨-, front, hrun, hfront⟩ := reads_of_mem_ways_run hrun
    have hrest := (List.takeWhile_append_dropWhile (p := (· != '>')) (l := x.cursor.rest)).symm
    obtain ⟨hhere, htail⟩ := takeWhile_inside x.cursor.rest
    generalize x.cursor.rest.takeWhile (· != '>') = here,
      x.cursor.rest.dropWhile (· != '>') = tail at *
    have hopening : Opening cs name (d :: more ++ (front ++ here)) tail := by
      refine ⟨?_, hfolded, hd, ?_, htail⟩
      · rw [show cs = _ from hname.rest, hfirst.rest, hmore.rest, hrun.rest, hrest]
        simp
      · have hblank : '>' ∉ d :: more := not_mem_of_class rfl (List.forall_mem_cons.2 ⟨hd, hall⟩)
        have hfront : '>' ∉ front := not_mem_of_class rfl hfront
        simp only [List.mem_append, not_or]
        exact ⟨hblank, hfront, hhere⟩
    have hnone : lastSource? tail (d :: more ++ (front ++ here)) = none := by
      cases hlast : lastSource? tail (d :: more ++ (front ++ here)) with
      | none => rfl
      | some found =>
        rw [sourceAt?, opening?_eq_some_iff.2 ⟨name, hopening⟩, Option.bind_some, hlast] at h
        cases h
    have hsuffix : here <:+ d :: more ++ (front ++ here) := ⟨d :: more ++ front, by simp⟩
    have hvalue := valueAt?_eq_none_of_suffix htail hnone hsuffix
    rw [← hrest] at hvalue
    have hfails : sourceValue.ways _ = [] :=
      fails_sourceValue (s := ⟨x.cursor, ("attributes", ⟨v.cursor, x.cursor⟩) :: x.groups⟩) hvalue
    rw [hfails] at ht
    cases ht
  shorter := by
    intro cs source rest h
    obtain ⟨name, inside, tail, front, hopening, hlast, -⟩ := sourceAt?_eq_some_iff.1 h
    obtain ⟨c, here, rfl, hvalue, -⟩ := lastSource?_eq_some_iff.1 hlast
    obtain ⟨read, q, -, -, -, -, heq⟩ := valueAt?_eq_some_iff.1 hvalue
    have hlength := congrArg List.length heq
    rw [hopening.text]
    simp only [List.length_append, List.length_cons] at hlength ⊢
    omega
  leads := by
    intro cs source rest h offset prior
    obtain ⟨name, inside, tail, front, hopening, hlast, hsource⟩ := sourceAt?_eq_some_iff.1 h
    obtain ⟨c, here, rfl, hvalue, hlater⟩ := lastSource?_eq_some_iff.1 hlast
    have hc : Text.isBlank c = false := by
      by_contra hblank
      rw [valueAt?_eq_none (.inl (by simpa using hblank))] at hvalue
      cases hvalue
    have hne : front.takeWhile Text.isBlank ≠ [] := by
      cases front with
      | nil =>
        have hstart : Text.isBlank c = true := hopening.start
        rw [hstart] at hc
        cases hc
      | cons d front =>
        have hstart : Text.isBlank d = true := hopening.start
        simp [hstart]
    have hsplit := List.takeWhile_append_dropWhile (p := Text.isBlank) (l := front)
    have htext : cs = name ++ (front.takeWhile Text.isBlank ++
        (front.dropWhile Text.isBlank ++ c :: (here ++ tail))) := by
      rw [hopening.text, ← List.append_assoc (front.takeWhile Text.isBlank), hsplit]
      simp
    have hinside : '>' ∉ front.dropWhile Text.isBlank := fun hmem =>
      hopening.inside (List.mem_append_left _ ((List.dropWhile_sublist _).subset hmem))
    obtain ⟨t, hleads, hrest, hview⟩ := leads_attributes
      (s := Progress.after ⟨⟨offset, prior, cs⟩, []⟩
      (name ++ front.takeWhile Text.isBlank) _) hinside rfl hopening.tail hvalue hlater
    have hway := leads_opening hopening.name hne (fun d hd => List.mem_takeWhile_imp hd)
      (any_head?_dropWhile hc front (here ++ tail)) htext hleads
    rw [Leads, ← ways_scriptSource] at hway
    refine ⟨t, hway, hrest, ?_⟩
    obtain ⟨hattributes, hvalue⟩ := hview ⟨⟨offset, prior, cs⟩, t.cursor⟩
    rw [hattributes, hvalue, hrest]
    exact hsource.symm

end CodeSurvey.Document
