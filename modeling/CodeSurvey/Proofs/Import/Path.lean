import CodeSurvey.Import.Resolve
import CodeSurvey.Proofs.Text.Line
import Mathlib.Data.List.Induction
import Mathlib.Logic.Relation

/-!
# Plain forms of paths

A path is shortened by leaving out an empty segment, a dot, or a name together with the double dot
behind it. What remains when only names are left is the plain form of the path. There is at most
one, however the path is shortened, and there is none exactly when some part of the path from its
start on goes up more often than down.
-/
namespace CodeSurvey.Import

/-! ### Segments -/

theorem ofSegments_segments (path : String) : ofSegments (segments path) = path := by
  rw [ofSegments, segments, ← String.toList_inj, String.toList_intercalate, List.map_map]
  have hsame : String.toList ∘ String.ofList = id := funext fun _ => String.toList_ofList
  rw [hsame, List.map_id]
  exact List.intercalate_splitOn '/'

theorem not_mem_of_mem_segments {path s : String} (h : s ∈ segments path) : '/' ∉ s.toList := by
  obtain ⟨piece, hpiece, rfl⟩ := List.mem_map.1 h
  rw [String.toList_ofList]
  exact Text.not_mem_of_mem_splitOn hpiece

theorem segments_ne_nil (path : String) : segments path ≠ [] :=
  fun h => List.splitOn_ne_nil _ _ (List.map_eq_nil_iff.1 h)

theorem segments_ofSegments {parts : List String} (hne : parts ≠ [])
    (h : ∀ s ∈ parts, '/' ∉ s.toList) :
    segments (ofSegments parts) = parts := by
  have hsplit : (['/'].intercalate (parts.map String.toList)).splitOn '/' =
      parts.map String.toList := by
    refine List.splitOn_intercalate '/' ?_ (by simpa using hne)
    rintro _ hl
    obtain ⟨s, hs, rfl⟩ := List.mem_map.1 hl
    exact h s hs
  have hsame : String.ofList ∘ String.toList = id := funext fun _ => String.ofList_toList
  rw [segments, ofSegments, String.toList_intercalate]
  rw [show "/".toList = ['/'] from rfl, hsplit, List.map_map, hsame, List.map_id]

theorem segments_slash (dir rest : String) :
    segments (dir ++ "/" ++ rest) = segments dir ++ segments rest := by
  have htext : (dir ++ "/" ++ rest).toList = dir.toList ++ '/' :: rest.toList := by
    rw [String.toList_append, String.toList_append, List.append_assoc]
    rfl
  rw [segments, htext, List.splitOn_append_cons_self, List.map_append, segments, segments]

/-! ### Plain forms -/

/-- Whether a segment names something. -/
def isName (s : String) : Bool :=
  s != "" && s != "." && s != ".."

theorem isName_iff {s : String} : isName s = true ↔ s ≠ "" ∧ s ≠ "." ∧ s ≠ ".." := by
  simp only [isName, Bool.and_eq_true, bne_iff_ne, and_assoc]

/-- A path with one step less: an empty segment or a dot is left out, or a name with the double dot
behind it. -/
inductive Shortens : List String → List String → Prop
  | idle {s : String} (h : s = "" ∨ s = ".") (front rest : List String) :
    Shortens (front ++ s :: rest) (front ++ rest)
  | back {s : String} (h : isName s = true) (front rest : List String) :
      Shortens (front ++ s :: ".." :: rest) (front ++ rest)

/-- What remains of a path when it has been shortened until only names are left. -/
structure IsPlainForm (path parts : List String) : Prop where
  shortens : Relation.ReflTransGen Shortens path parts
  names : ∀ s ∈ parts, isName s = true

variable {path parts stack : List String} {s : String}

theorem segment_cases (s : String) : isName s = true ∨ (s = "" ∨ s = ".") ∨ s = ".." := by
  rw [isName_iff]
  tauto

theorem pushSegment_name (h : isName s = true) : pushSegment stack s = some (s :: stack) := by
  rw [isName_iff] at h
  simp [pushSegment, h]

theorem pushSegment_idle (h : s = "" ∨ s = ".") : pushSegment stack s = some stack := by
  simp [pushSegment, h]

theorem pushSegment_up_nil : pushSegment [] ".." = none := by
  simp [pushSegment]

theorem pushSegment_up_cons (name : String) : pushSegment (name :: stack) ".." = some stack := by
  simp [pushSegment]

theorem foldlM_concat (path : List String) (s : String) :
    (path ++ [s]).foldlM pushSegment [] = (path.foldlM pushSegment []).bind (pushSegment · s) := by
  rw [List.foldlM_append]
  cases path.foldlM pushSegment [] <;> simp

/-- Shortening does not change what is read. -/
theorem Shortens.foldlM_eq {shorter : List String} (h : Shortens path shorter) :
    path.foldlM pushSegment [] = shorter.foldlM pushSegment [] := by
  cases h with
  | idle hs front rest =>
    rw [List.foldlM_append, List.foldlM_append]
    congr 1
    funext stack
    rw [List.foldlM_cons, pushSegment_idle hs]
    rfl
  | @back s hs front rest =>
    rw [List.foldlM_append, List.foldlM_append]
    congr 1
    funext stack
    have hup : (".." :: rest).foldlM pushSegment (s :: stack) = rest.foldlM pushSegment stack := by
      rw [List.foldlM_cons, pushSegment_up_cons]
      rfl
    rw [List.foldlM_cons, pushSegment_name hs]
    exact hup

theorem Shortens.concat {shorter : List String} (h : Shortens path shorter) (s : String) :
    Shortens (path ++ [s]) (shorter ++ [s]) := by
  cases h with
  | idle hs front rest => simpa using Shortens.idle hs front (rest ++ [s])
  | back hs front rest => simpa using Shortens.back hs front (rest ++ [s])

theorem Shortens.sublist {shorter : List String} (h : Shortens path shorter) :
    shorter.Sublist path := by
  cases h with
  | idle _ front rest => exact (List.sublist_cons_self _ _).append_left front
  | back _ front rest =>
    exact ((List.sublist_cons_self _ _).trans (List.sublist_cons_self _ _)).append_left front

theorem IsPlainForm.sublist (h : IsPlainForm path parts) : parts.Sublist path := by
  obtain ⟨hshortens, -⟩ := h
  induction hshortens using Relation.ReflTransGen.head_induction_on with
  | refl => exact .refl _
  | head hstep _ ih => exact ih.trans hstep.sublist

/-- Names are read as they stand. -/
theorem foldlM_names (h : ∀ s ∈ parts, isName s = true) :
    parts.foldlM pushSegment [] = some parts.reverse := by
  induction parts using List.reverseRecOn with
  | nil => rfl
  | append_singleton parts s ih =>
    rw [foldlM_concat, ih fun t ht => h t (by simp [ht]), Option.bind_some,
      pushSegment_name (h s (by simp))]
    simp

/-- The path with the stack of names in place of what has been read can be shortened on. -/
private theorem isPlainForm_of_foldlM (h : path.foldlM pushSegment [] = some stack) :
    IsPlainForm path stack.reverse := by
  induction path using List.reverseRecOn generalizing stack with
  | nil =>
    obtain rfl : [] = stack := Option.some.inj h
    exact ⟨.refl, by simp⟩
  | append_singleton path s ih =>
    rw [foldlM_concat, Option.bind_eq_some_iff] at h
    obtain ⟨before, hbefore, hpush⟩ := h
    obtain ⟨hshortens, hnames⟩ := ih hbefore
    have hpath : Relation.ReflTransGen Shortens (path ++ [s]) (before.reverse ++ [s]) :=
      Relation.ReflTransGen.lift (· ++ [s]) (fun _ _ hstep => Shortens.concat hstep s) _ _ hshortens
    rcases segment_cases s with hname | hidle | rfl
    · rw [pushSegment_name hname, Option.some_inj] at hpush
      subst hpush
      refine ⟨by simpa using hpath, ?_⟩
      intro t ht
      rw [List.reverse_cons, List.mem_append, List.mem_singleton] at ht
      rcases ht with ht | rfl
      · exact hnames t ht
      · exact hname
    · rw [pushSegment_idle hidle, Option.some_inj] at hpush
      subst hpush
      refine ⟨hpath.tail ?_, hnames⟩
      simpa using Shortens.idle hidle before.reverse []
    · cases before with
      | nil =>
        rw [pushSegment_up_nil] at hpush
        cases hpush
      | cons name before =>
        rw [pushSegment_up_cons, Option.some_inj] at hpush
        subst hpush
        have hlast : isName name = true := hnames name (by simp)
        refine ⟨hpath.tail ?_, fun t ht => hnames t (by simpa using .inl (List.mem_reverse.1 ht))⟩
        simpa using Shortens.back hlast before.reverse []

theorem foldlM_eq_some_iff :
    path.foldlM pushSegment [] = some stack ↔ IsPlainForm path stack.reverse := by
  refine ⟨isPlainForm_of_foldlM, ?_⟩
  rintro ⟨hshortens, hnames⟩
  rw [← List.reverse_reverse stack, ← foldlM_names hnames]
  clear hnames
  induction hshortens using Relation.ReflTransGen.head_induction_on with
  | refl => rfl
  | head hstep _ ih => exact hstep.foldlM_eq.trans ih

/-- Written as a path, a plain form is empty or has names for segments. -/
theorem IsPlainForm.isName_segments (h : IsPlainForm path parts)
    (hslash : ∀ s ∈ path, '/' ∉ s.toList) :
    ofSegments parts = "" ∨ ∀ s ∈ segments (ofSegments parts), isName s = true := by
  by_cases hne : parts = []
  · subst hne
    exact .inl rfl
  · right
    rw [segments_ofSegments hne fun s hs => hslash s (h.sublist.subset hs)]
    exact h.names

/-! ### Paths that climb above the root -/

/-- Some part of the path from its start on goes up more often than down. -/
def ClimbsAbove (path : List String) : Prop :=
  ∃ front, front <+: path ∧ front.countP isName < front.count ".."

/-- What is left on the way down is the number of steps down less the number of steps up. -/
theorem length_of_foldlM (h : path.foldlM pushSegment [] = some stack) :
    stack.length + path.count ".." = path.countP isName := by
  induction path using List.reverseRecOn generalizing stack with
  | nil =>
    obtain rfl : [] = stack := Option.some.inj h
    rfl
  | append_singleton path s ih =>
    rw [foldlM_concat, Option.bind_eq_some_iff] at h
    obtain ⟨before, hbefore, hpush⟩ := h
    have hlength := ih hbefore
    rw [List.count_append, List.countP_append]
    rcases segment_cases s with hname | hidle | rfl
    · have hup : s ≠ ".." := by
        rintro rfl
        exact absurd hname (by decide)
      have hcount : [s].count ".." = 0 := by simp [hup]
      have hnames : [s].countP isName = 1 := by simp [hname]
      rw [pushSegment_name hname, Option.some_inj] at hpush
      rw [hcount, hnames, ← hpush, List.length_cons]
      omega
    · rw [pushSegment_idle hidle, Option.some_inj] at hpush
      subst hpush
      rcases hidle with rfl | rfl <;> simpa [isName] using hlength
    · cases before with
      | nil =>
        rw [pushSegment_up_nil] at hpush
        cases hpush
      | cons name before =>
        have hcount : [".."].count ".." = 1 := by simp
        have hnames : [".."].countP isName = 0 := rfl
        rw [pushSegment_up_cons, Option.some_inj] at hpush
        rw [List.length_cons] at hlength
        rw [hcount, hnames, ← hpush]
        omega

theorem foldlM_eq_none_iff : path.foldlM pushSegment [] = none ↔ ClimbsAbove path := by
  constructor
  · intro h
    induction path using List.reverseRecOn with
    | nil => cases h
    | append_singleton path s ih =>
      rw [foldlM_concat] at h
      cases hpath : path.foldlM pushSegment [] with
      | none =>
        obtain ⟨front, hfront, hcount⟩ := ih hpath
        exact ⟨front, hfront.trans (List.prefix_append _ _), hcount⟩
      | some stack =>
        rw [hpath, Option.bind_some] at h
        rcases segment_cases s with hname | hidle | rfl
        · rw [pushSegment_name hname] at h
          cases h
        · rw [pushSegment_idle hidle] at h
          cases h
        · cases stack with
          | nil =>
            have hlength := length_of_foldlM hpath
            have hcount : [".."].count ".." = 1 := by simp
            have hnames : [".."].countP isName = 0 := rfl
            rw [List.length_nil] at hlength
            refine ⟨path ++ [".."], List.prefix_rfl, ?_⟩
            rw [List.count_append, List.countP_append, hcount, hnames]
            omega
          | cons name stack =>
            rw [pushSegment_up_cons] at h
            cases h
  · rintro ⟨front, ⟨rest, rfl⟩, hcount⟩
    cases hfront : front.foldlM pushSegment [] with
    | none =>
      rw [List.foldlM_append, hfront]
      rfl
    | some stack =>
      have hlength := length_of_foldlM hfront
      omega

theorem climbsAbove_iff : ClimbsAbove path ↔ ∀ parts, ¬IsPlainForm path parts := by
  rw [← foldlM_eq_none_iff, Option.eq_none_iff_forall_ne_some]
  refine ⟨fun h parts hparts => h parts.reverse (foldlM_eq_some_iff.2 ?_), fun h stack hstack => ?_⟩
  · rwa [List.reverse_reverse]
  · exact h _ (foldlM_eq_some_iff.1 hstack)

/-! ### Laws of normalization -/

/-- A joined path is read as its two parts one after the other. -/
theorem foldlM_join (dir rest : String) :
    (segments (join dir rest)).foldlM pushSegment [] =
      (segments dir ++ segments rest).foldlM pushSegment [] := by
  have hempty : segments "" = [""] := rfl
  rw [join]
  split
  · rename_i hdir
    rw [hdir, hempty]
    exact (Shortens.idle (.inl rfl) [] (segments rest)).foldlM_eq.symm
  · split
    · rename_i hrest
      rw [hrest, hempty, (Shortens.idle (.inl rfl) (segments dir) []).foldlM_eq, List.append_nil]
    · rw [segments_slash]

theorem normalize?_eq_none_iff {path : String} :
    normalize? path = none ↔ ClimbsAbove (segments path) := by
  rw [normalize?, Option.map_eq_none_iff, foldlM_eq_none_iff]

theorem normalize?_eq_some_iff {path plain : String} :
    normalize? path = some plain ↔ ∃ parts, IsPlainForm (segments path) parts ∧
    ofSegments parts = plain := by
  rw [normalize?, Option.map_eq_some_iff]
  constructor
  · rintro ⟨stack, hstack, hplain⟩
    exact ⟨stack.reverse, foldlM_eq_some_iff.1 hstack, hplain⟩
  · rintro ⟨parts, hparts, hplain⟩
    refine ⟨parts.reverse, foldlM_eq_some_iff.2 ?_, ?_⟩
    · rwa [List.reverse_reverse]
    · rwa [List.reverse_reverse]

/-- Written as a path and read again, a plain form gives itself. -/
theorem IsPlainForm.foldlM_ofSegments (h : IsPlainForm path parts)
    (hslash : ∀ s ∈ path, '/' ∉ s.toList) :
    (segments (ofSegments parts)).foldlM pushSegment [] = some parts.reverse := by
  by_cases hne : parts = []
  · subst hne
    rfl
  · rw [segments_ofSegments hne fun s hs => hslash s (h.sublist.subset hs)]
    exact foldlM_names h.names

theorem foldlM_normalize? {path plain : String} (h : normalize? path = some plain) :
    (segments plain).foldlM pushSegment [] = (segments path).foldlM pushSegment [] := by
  obtain ⟨parts, hparts, rfl⟩ := normalize?_eq_some_iff.1 h
  have hread : (segments path).foldlM pushSegment [] = some parts.reverse := by
    apply foldlM_eq_some_iff.2
    rwa [List.reverse_reverse]
  rw [hread, hparts.foldlM_ofSegments fun s hs => not_mem_of_mem_segments hs]

/-- A path has no plain form exactly if some part of it from its start on goes up more often than
down. Otherwise it has one, which is empty or made of names and is its own plain form, and which can
take the place of the path in front of any other. -/
theorem normalize?_laws :
    (∀ path, normalize? path = none ↔ ClimbsAbove (segments path)) ∧
      (∀ path plain, normalize? path = some plain →
        (∃ parts, IsPlainForm (segments path) parts ∧ ofSegments parts = plain) ∧
          (plain = "" ∨ ∀ s ∈ segments plain, s ≠ "" ∧ s ≠ "." ∧ s ≠ "..") ∧
          normalize? plain = some plain) ∧
      ∀ dir plain rest, normalize? dir = some plain →
      normalize? (join dir rest) = normalize? (join plain rest) := by
  refine ⟨fun path => normalize?_eq_none_iff, ?_, ?_⟩
  · intro path plain h
    refine ⟨normalize?_eq_some_iff.1 h, ?_, ?_⟩
    · obtain ⟨parts, hparts, rfl⟩ := normalize?_eq_some_iff.1 h
      refine (hparts.isName_segments fun s hs => not_mem_of_mem_segments hs).imp_right ?_
      intro hnames s hs
      exact isName_iff.1 (hnames s hs)
    · rw [normalize?, foldlM_normalize? h]
      exact h
  · intro dir plain rest h
    rw [normalize?, normalize?, foldlM_join, foldlM_join, List.foldlM_append, List.foldlM_append,
      foldlM_normalize? h]

/-- A folder that is left and entered again, and a path that climbs out of what remains of it. -/
theorem normalize?_laws_climbing :
    normalize? "a/b/./../c" = some "a/c" ∧
    normalize? (join "a/b/./../c" "../../d") = normalize? (join "a/c" "../../d") :=
  ⟨rfl, normalize?_laws.2.2 "a/b/./../c" "a/c" "../../d" rfl⟩

end CodeSurvey.Import
