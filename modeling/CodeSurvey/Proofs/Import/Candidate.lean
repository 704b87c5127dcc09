import CodeSurvey.Proofs.Import.Path
import Mathlib.Data.List.Basic
import Mathlib.Data.List.TakeWhile

/-!
# Candidates for an import

Which files an import token may mean depends on the token, the file that it stands in and the
language, not on the tree. The bases are described by their segments: a relative token goes up from
the directory of the file, any other one is tried from the root, from that directory and from the
deepest source root above the file, and what climbs above the root is passed over. A dotted token
alone is never found to climb above the root.
-/
namespace CodeSurvey.Import

/-! ### Directories -/

theorem parentDir_of_not_mem {path : String} (h : '/' ∉ path.toList) : parentDir path = "" := by
  have hnone : path.toList.reverse.dropWhile (· != '/') = [] := by
    rw [List.dropWhile_eq_nil_iff]
    intro c hc
    simpa using ne_of_mem_of_not_mem (List.mem_reverse.1 hc) h
  rw [parentDir, hnone]

theorem parentDir_ofList {dir name : List Char} (h : '/' ∉ name) :
    parentDir (String.ofList (dir ++ '/' :: name)) = String.ofList dir := by
  have hrest : (dir ++ '/' :: name).reverse.dropWhile (· != '/') = '/' :: dir.reverse := by
    rw [List.reverse_append, List.reverse_cons, List.append_assoc, List.dropWhile_append_of_pos]
    · rfl
    · intro c hc
      simpa using ne_of_mem_of_not_mem (List.mem_reverse.1 hc) h
  rw [parentDir, String.toList_ofList, hrest]
  dsimp only
  rw [List.reverse_reverse]

/-- The directory of a file has all segments of its path but the last one. -/
theorem parentDir_eq (path : String) : parentDir path = ofSegments (segments path).dropLast := by
  by_cases hmem : '/' ∈ path.toList
  · obtain ⟨name, dir, hpath, hname⟩ := List.eq_append_cons_of_mem (List.mem_reverse.2 hmem)
    have htext : path.toList = dir.reverse ++ '/' :: name.reverse := by
      rw [← List.reverse_reverse path.toList, hpath]
      simp
    have hlast : '/' ∉ name.reverse := by simpa using hname
    have hsegments : segments path = segments (String.ofList dir.reverse) ++
        [String.ofList name.reverse] := by
      rw [segments, htext, List.splitOn_append_cons_self, List.splitOn_eq_singleton hlast,
        List.map_append, segments, String.toList_ofList]
      rfl
    rw [hsegments, List.dropLast_concat, ofSegments_segments, ← parentDir_ofList hlast, ← htext,
      String.ofList_toList]
  · rw [parentDir_of_not_mem hmem, segments, List.splitOn_eq_singleton hmem]
    rfl

theorem segments_parentDir {dir : String} (h : 1 < (segments dir).length) :
    segments (parentDir dir) = (segments dir).dropLast := by
  rw [parentDir_eq, segments_ofSegments]
  · rw [← List.length_pos_iff, List.length_dropLast]
    omega
  · exact fun s hs => not_mem_of_mem_segments (List.dropLast_subset _ hs)

theorem ofSegments_take_root (n : Nat) : ofSegments ((segments "").take n) = "" := by
  have hempty : segments "" = [""] := rfl
  rw [hempty]
  cases n with
  | zero => rfl
  | succ n => rw [List.take_succ_cons, List.take_nil]; rfl

/-- Going up leaves out segments from the end, as long as there are any. -/
theorem climb_eq (n : Nat) (dir : String) :
    climb n dir = ofSegments ((segments dir).take ((segments dir).length - n)) := by
  induction n generalizing dir with
  | zero => rw [climb, Nat.sub_zero, List.take_length, ofSegments_segments]
  | succ n ih =>
    rw [climb, ih]
    have hpos := List.length_pos_iff.2 (segments_ne_nil dir)
    by_cases hlong : 1 < (segments dir).length
    · rw [segments_parentDir hlong, List.length_dropLast, List.dropLast_eq_take, List.take_take]
      congr 2
      omega
    · obtain ⟨s, hs⟩ := List.length_eq_one_iff.1 (Nat.le_antisymm (Nat.not_lt.1 hlong) hpos)
      have hroot : parentDir dir = "" := by
        rw [parentDir_eq, hs]
        rfl
      have hnone : [s].length - (n + 1) = 0 := by simp
      rw [hroot, hs, ofSegments_take_root, hnone]
      rfl

/-! ### Source roots -/

/-- The deepest directory on the way down that is named like a source root. -/
def IsSourceRoot (dirs root : List String) : Prop :=
  ∃ above name below, dirs = above ++ name :: below ∧ root = above ++ [name] ∧ name ∈ sourceRoots ∧
    ∀ dir ∈ below, dir ∉ sourceRoots

variable {dirs root : List String} {name : String}

theorem isSourceRoot_concat_of_mem (h : name ∈ sourceRoots) :
    IsSourceRoot (dirs ++ [name]) root ↔ root = dirs ++ [name] := by
  constructor
  · rintro ⟨above, last, below, hdirs, rfl, -, hbelow⟩
    rcases List.eq_nil_or_concat' below with rfl | ⟨below, dir, rfl⟩
    · exact hdirs.symm
    · rw [← List.cons_append, ← List.append_assoc] at hdirs
      obtain ⟨-, hdir⟩ := List.append_inj' hdirs rfl
      obtain rfl : name = dir := List.singleton_inj.1 hdir
      exact absurd h (hbelow name (by simp))
  · rintro rfl
    exact ⟨dirs, name, [], rfl, rfl, h, by simp⟩

theorem isSourceRoot_concat_of_not_mem (h : name ∉ sourceRoots) :
    IsSourceRoot (dirs ++ [name]) root ↔ IsSourceRoot dirs root := by
  constructor
  · rintro ⟨above, last, below, hdirs, rfl, hlast, hbelow⟩
    rcases List.eq_nil_or_concat' below with rfl | ⟨below, dir, rfl⟩
    · obtain ⟨-, hname⟩ := List.append_inj' hdirs rfl
      obtain rfl : name = last := List.singleton_inj.1 hname
      exact absurd hlast h
    · rw [← List.cons_append, ← List.append_assoc] at hdirs
      obtain ⟨rfl, -⟩ := List.append_inj' hdirs rfl
      exact ⟨above, last, below, rfl, rfl, hlast, fun d hd => hbelow d (by simp [hd])⟩
  · rintro ⟨above, last, below, rfl, rfl, hlast, hbelow⟩
    refine ⟨above, last, below ++ [name], by simp, rfl, hlast, ?_⟩
    intro d hd
    rcases List.mem_append.1 hd with hd | hd
    · exact hbelow d hd
    · rwa [List.mem_singleton.1 hd]

theorem IsSourceRoot.subset (h : IsSourceRoot dirs root) : root ⊆ dirs := by
  obtain ⟨above, name, below, rfl, rfl, -⟩ := h
  exact List.append_subset.2 ⟨List.subset_append_left _ _, by simp⟩

theorem IsSourceRoot.ne_nil (h : IsSourceRoot dirs root) : root ≠ [] := by
  obtain ⟨above, name, below, rfl, rfl, -⟩ := h
  simp

/-- The directories on the way down, the deepest one first. -/
private def wayUp (dirs : List String) : List (List String) :=
  (List.range dirs.length).reverse.map fun n => dirs.take (n + 1)

private theorem wayUp_concat (dirs : List String) (name : String) :
    wayUp (dirs ++ [name]) = (dirs ++ [name]) :: wayUp dirs := by
  have hsame : ∀ n ∈ (List.range dirs.length).reverse, (dirs ++ [name]).take (n + 1) =
      dirs.take (n + 1) := by
    intro n hn
    rw [List.mem_reverse, List.mem_range] at hn
    rw [List.take_append_of_le_length (by omega)]
  have hall : (dirs ++ [name]).take (dirs.length + 1) = dirs ++ [name] :=
    List.take_of_length_le (by simp)
  rw [wayUp, List.length_append, List.length_singleton, List.range_succ, List.reverse_append,
    List.reverse_singleton, List.singleton_append, List.map_cons, hall, List.map_congr_left hsame,
    wayUp]

private theorem find?_wayUp (dirs root : List String) :
    (wayUp dirs).find? (fun p => p.getLast?.any sourceRoots.contains) = some root ↔
    IsSourceRoot dirs root := by
  induction dirs using List.reverseRecOn with
  | nil =>
    constructor
    · intro h
      cases h
    · rintro ⟨above, name, below, hdirs, -⟩
      simp at hdirs
  | append_singleton dirs name ih =>
    rw [wayUp_concat, List.find?_cons, List.getLast?_concat, Option.any_some]
    by_cases hname : name ∈ sourceRoots
    · rw [List.contains_iff_mem.2 hname, isSourceRoot_concat_of_mem hname, Option.some_inj, eq_comm]
    · have hnot : sourceRoots.contains name = false := by simpa using hname
      rw [hnot, isSourceRoot_concat_of_not_mem hname]
      exact ih

theorem exists_sourceRoot? (dir : String) :
    ∃ nearest : Option (List String), (∀ root, nearest = some root ↔
      IsSourceRoot (segments dir) root) ∧
      sourceRoot? dir = nearest.map ofSegments :=
  ⟨_, find?_wayUp (segments dir), rfl⟩

/-! ### Bases -/

/-- The plain forms of the paths in order. A path that has none is passed over. -/
inductive PlainForms : List (List String) → List String → Prop
  | nil : PlainForms [] []
  | keep {path parts : List String} {paths : List (List String)} {bases : List String}
      (h : IsPlainForm path parts)
      (rest : PlainForms paths bases) : PlainForms (path :: paths) (ofSegments parts :: bases)
  | pass {path : List String} {paths : List (List String)} {bases : List String}
      (h : ∀ parts, ¬IsPlainForm path parts)
      (rest : PlainForms paths bases) : PlainForms (path :: paths) bases

theorem PlainForms.isName_segments {paths : List (List String)} {bases : List String}
    (h : PlainForms paths bases) (hslash : ∀ path ∈ paths, ∀ s ∈ path, '/' ∉ s.toList) :
    ∀ base ∈ bases, base = "" ∨ ∀ s ∈ segments base, isName s = true := by
  induction h with
  | nil => simp
  | keep hform _ ih =>
    rw [List.forall_mem_cons] at hslash ⊢
    exact ⟨hform.isName_segments hslash.1, ih hslash.2⟩
  | pass _ _ ih => exact ih fun path hpath => hslash path (List.mem_cons_of_mem _ hpath)

/-- The segments of a token that is written without regard to where it stands. -/
def moduleSegments : ImportStyle → List Char → List String
  | .dotted, token => segments (undot token)
  | .path, token => segments (String.ofList token)

/-- The bases of a token without blanks at its ends, in a file with the directories `dirs` above
it. -/
inductive AreBases (dirs : List String) : ImportStyle → List Char → List String → Prop
  | empty (style : ImportStyle) : AreBases dirs style [] []
  /-- One dot stands for the directory of the file and each further one for the next directory
  above. -/
  | upwards (dots : Nat) {rest : List Char} (hrest : rest.head? ≠ some '.') :
      AreBases dirs .dotted (List.replicate (dots + 1) '.' ++ rest)
        [join (ofSegments (dirs.take (dirs.length - dots))) (undot rest)]
  | relative {rest : List Char} {bases : List String}
      (h : PlainForms [dirs ++ segments (String.ofList ('.' :: rest))] bases) :
        AreBases dirs .path ('.' :: rest) bases
  | rooted {rest : List Char} {bases : List String}
      (h : PlainForms [segments (String.ofList ('/' :: rest))] bases) :
      AreBases dirs .path ('/' :: rest) bases
  | absolute {style : ImportStyle} {c : Char} {rest : List Char} {bases : List String}
      (hdot : c ≠ '.') (hslash : style = .path → c ≠ '/') (nearest : Option (List String))
      (hnearest : ∀ root, nearest = some root ↔ IsSourceRoot dirs root)
      (h : PlainForms
        ([moduleSegments style (c :: rest), dirs ++ moduleSegments style (c :: rest)] ++
          nearest.toList.map (· ++ moduleSegments style (c :: rest))) bases) :
      AreBases dirs style (c :: rest) bases

/-- The plain form of a path, written as a path. -/
private def plainForm? (path : List String) : Option String :=
  (path.foldlM pushSegment []).map fun parts => ofSegments parts.reverse

private theorem plainForms_iff {paths : List (List String)} {bases : List String} :
    PlainForms paths bases ↔ bases = paths.filterMap plainForm? := by
  constructor
  · intro h
    induction h with
    | nil => rfl
    | @keep path parts paths bases h _ ih =>
      have hstack : path.foldlM pushSegment [] = some parts.reverse :=
        foldlM_eq_some_iff.2 (by rwa [List.reverse_reverse])
      have hform : plainForm? path = some (ofSegments parts) := by
        rw [plainForm?, hstack, Option.map_some, List.reverse_reverse]
      rw [List.filterMap_cons_some hform, ih]
    | @pass path paths bases h _ ih =>
      have hform : plainForm? path = none := by
        rw [plainForm?, Option.map_eq_none_iff, Option.eq_none_iff_forall_ne_some]
        exact fun stack hstack => h _ (foldlM_eq_some_iff.1 hstack)
      rw [List.filterMap_cons_none hform, ih]
  · rintro rfl
    induction paths with
    | nil => exact .nil
    | cons path paths ih =>
      cases hstack : path.foldlM pushSegment [] with
      | none =>
        rw [List.filterMap_cons_none (by rw [plainForm?, hstack]; rfl)]
        refine .pass (fun parts hparts => ?_) ih
        rw [← List.reverse_reverse parts] at hparts
        rw [foldlM_eq_some_iff.2 hparts] at hstack
        cases hstack
      | some stack =>
        rw [List.filterMap_cons_some (by rw [plainForm?, hstack]; rfl)]
        exact .keep (foldlM_eq_some_iff.1 hstack) ih

private theorem filterMap_plainForm?_singleton (path : List String) :
    [path].filterMap plainForm? = (plainForm? path).toList := by
  rw [List.filterMap_cons]
  cases plainForm? path <;> rfl

private theorem plainForm?_idle {s : String} (h : s = "" ∨ s = ".") (front rest : List String) :
    plainForm? (front ++ s :: rest) = plainForm? (front ++ rest) := by
  rw [plainForm?, plainForm?, (Shortens.idle h front rest).foldlM_eq]

private theorem normalize?_eq_plainForm? (path : String) :
    normalize? path = plainForm? (segments path) :=
  rfl

private theorem plainForm?_join (dir rest : String) :
    plainForm? (segments (join dir rest)) = plainForm? (segments dir ++ segments rest) := by
  rw [plainForm?, plainForm?, foldlM_join]

/-- Slashes in front of a path make no difference. -/
private theorem normalize?_dropSlashes (cs : List Char) :
    normalize? (String.ofList (cs.dropWhile (· == '/'))) =
      plainForm? (segments (String.ofList cs)) := by
  induction cs with
  | nil => rfl
  | cons c cs ih =>
    by_cases hc : c = '/'
    · subst hc
      have hsegments : segments (String.ofList ('/' :: cs)) =
          "" :: segments (String.ofList cs) := by
        rw [segments, String.toList_ofList, List.splitOn_cons_eq_if_modifyHead, if_pos (by rfl),
          List.map_cons, segments, String.toList_ofList]
      rw [List.dropWhile_cons_of_pos (by rfl), ih, hsegments]
      exact (plainForm?_idle (.inl rfl) [] _).symm
    · rw [List.dropWhile_cons_of_neg (by simpa using hc)]
      rfl

section Bases

variable {dir : String} {style : ImportStyle} {c : Char} {rest token : List Char} {bs : List String}

theorem takeWhile_dots (dots : Nat) (hrest : rest.head? ≠ some '.') :
    (List.replicate dots '.' ++ rest).takeWhile (· == '.') = List.replicate dots '.' := by
  rw [List.takeWhile_append_of_pos (by simp)]
  cases rest with
  | nil => simp
  | cons c rest => rw [List.takeWhile_cons_of_neg (by simpa using hrest), List.append_nil]

theorem dropWhile_dots (dots : Nat) (hrest : rest.head? ≠ some '.') :
    (List.replicate dots '.' ++ rest).dropWhile (· == '.') = rest := by
  rw [List.dropWhile_append_of_pos (by simp)]
  cases rest with
  | nil => rfl
  | cons c rest => rw [List.dropWhile_cons_of_neg (by simpa using hrest)]

theorem exists_dots (h : token.head? = some '.') :
    ∃ dots rest, token = List.replicate (dots + 1) '.' ++ rest ∧ rest.head? ≠ some '.' := by
  obtain ⟨rest, rfl⟩ := List.head?_eq_some_iff.1 h
  refine ⟨(rest.takeWhile (· == '.')).length, rest.dropWhile (· == '.'), ?_, ?_⟩
  · have hall : rest.takeWhile (· == '.') =
        List.replicate (rest.takeWhile (· == '.')).length '.' := by
      rw [List.eq_replicate_iff]
      exact ⟨rfl, fun c hc => by simpa using List.mem_takeWhile_imp hc⟩
    rw [List.replicate_succ, List.cons_append, ← hall, List.takeWhile_append_dropWhile]
  · intro hhead
    have hnot := List.head?_dropWhile_not (· == '.') rest
    rw [hhead] at hnot
    simp at hnot

private theorem bases_upwards (dots : Nat) (hrest : rest.head? ≠ some '.') :
    bases .dotted dir (String.ofList (List.replicate (dots + 1) '.' ++ rest)) =
      [join (ofSegments ((segments dir).take ((segments dir).length - dots))) (undot rest)] := by
  have hhead : ((List.replicate (dots + 1) '.' ++ rest).head? == some '.') = true := rfl
  rw [← climb_eq, bases, String.toList_ofList]
  dsimp only
  rw [if_pos hhead, takeWhile_dots _ hrest, List.length_replicate, Nat.add_sub_cancel,
    List.drop_left' List.length_replicate]

private theorem bases_relative :
    bases .path dir (String.ofList ('.' :: rest)) =
      [segments dir ++ segments (String.ofList ('.' :: rest))].filterMap plainForm? := by
  rw [bases, String.toList_ofList]
  dsimp only
  rw [if_pos (by rfl), normalize?_eq_plainForm?, plainForm?_join, filterMap_plainForm?_singleton]

private theorem bases_rooted :
    bases .path dir (String.ofList ('/' :: rest)) =
      [segments (String.ofList ('/' :: rest))].filterMap plainForm? := by
  rw [bases, String.toList_ofList]
  dsimp only
  rw [if_neg (by simp), if_pos (by rfl), normalize?_dropSlashes, filterMap_plainForm?_singleton]

private theorem bases_absolute (hdot : c ≠ '.') (hslash : style = .path → c ≠ '/')
    {nearest : Option (List String)}
    (hnearest : ∀ root, nearest = some root ↔ IsSourceRoot (segments dir) root) :
    bases style dir (String.ofList (c :: rest)) =
      ([moduleSegments style (c :: rest), segments dir ++ moduleSegments style (c :: rest)] ++
        nearest.toList.map (· ++ moduleSegments style (c :: rest))).filterMap plainForm? := by
  obtain ⟨found, hfound, hroot⟩ := exists_sourceRoot? dir
  obtain rfl : found = nearest := Option.ext fun root => (hfound root).trans (hnearest root).symm
  have hwritten : ∀ root, found = some root → segments (ofSegments root) = root := by
    intro root hsome
    have hnearest := (hfound root).1 hsome
    exact segments_ofSegments hnearest.ne_nil fun s hs => not_mem_of_mem_segments
      (hnearest.subset hs)
  have hpaths : ∀ module : String,
      ([module, join dir module] ++ (sourceRoot? dir).toList.map (join · module)).filterMap
        normalize? =
        ([segments module, segments dir ++ segments module] ++
          found.toList.map (· ++ segments module)).filterMap
          plainForm? := by
    intro module
    rw [← Function.id_comp normalize?, ← Function.id_comp plainForm?, ← List.filterMap_map,
      ← List.filterMap_map, hroot]
    congr 1
    cases hsome : found with
    | none => simp [normalize?_eq_plainForm?, plainForm?_join]
    | some root => simp [normalize?_eq_plainForm?, plainForm?_join, hwritten root hsome]
  cases style with
  | dotted =>
    rw [bases, String.toList_ofList]
    dsimp only
    rw [if_neg (by simpa using hdot), hpaths]
    rfl
  | path =>
    rw [bases, String.toList_ofList]
    dsimp only
    rw [if_neg (by simpa using hdot), if_neg (by simpa using hslash rfl), hpaths]
    rfl

/-- The bases that are tried are the ones described, and no other ones are. -/
theorem areBases_iff :
    AreBases (segments dir) style token bs ↔
    bs = if token = [] then [] else bases style dir (String.ofList token) := by
  constructor
  · intro h
    cases h with
    | empty style => rfl
    | upwards dots hrest => rw [if_neg (by simp), bases_upwards dots hrest]
    | relative h => rw [if_neg (by simp), bases_relative, plainForms_iff.1 h]
    | rooted h => rw [if_neg (by simp), bases_rooted, plainForms_iff.1 h]
    | absolute hdot hslash nearest hnearest h =>
      rw [if_neg (by simp), bases_absolute hdot hslash hnearest, plainForms_iff.1 h]
  · rintro rfl
    cases token with
    | nil => exact .empty style
    | cons c rest =>
      rw [if_neg (by simp)]
      by_cases hdot : c = '.'
      · subst hdot
        cases style with
        | dotted =>
          obtain ⟨dots, tail, htoken, htail⟩ := exists_dots (List.head?_cons (a := '.') (l := rest))
          rw [htoken, bases_upwards dots htail]
          exact .upwards dots htail
        | path =>
          rw [bases_relative]
          exact .relative (plainForms_iff.2 rfl)
      · obtain ⟨nearest, hnearest, -⟩ := exists_sourceRoot? dir
        by_cases hslash : style = .path ∧ c = '/'
        · obtain ⟨rfl, rfl⟩ := hslash
          rw [bases_rooted]
          exact .rooted (plainForms_iff.2 rfl)
        · have hslash : style = .path → c ≠ '/' := fun hs hc => hslash ⟨hs, hc⟩
          rw [bases_absolute hdot hslash hnearest]
          exact .absolute hdot hslash nearest hnearest (plainForms_iff.2 rfl)

end Bases

/-! ### First hits -/

/-- With path syntax a base is empty or has names for segments. -/
theorem AreBases.isName_segments {dir : String} {style : ImportStyle} {token : List Char}
    {bs : List String} (h : AreBases (segments dir) style token bs) (hstyle : style = .path) :
    ∀ base ∈ bs, base = "" ∨ ∀ s ∈ segments base, isName s = true := by
  subst hstyle
  have hdirs : ∀ s ∈ segments dir, '/' ∉ s.toList := fun s hs => not_mem_of_mem_segments hs
  have htoken : ∀ {cs : List Char}, ∀ s ∈ segments (String.ofList cs), '/' ∉ s.toList :=
    fun s hs => not_mem_of_mem_segments hs
  have happend : ∀ {front rest : List String}, (∀ s ∈ front, '/' ∉ s.toList) →
      (∀ s ∈ rest, '/' ∉ s.toList) →
      ∀ s ∈ front ++ rest, '/' ∉ s.toList :=
        fun hfront hrest => List.forall_mem_append.2 ⟨hfront, hrest⟩
  cases h with
  | empty => simp
  | relative h => exact h.isName_segments (List.forall_mem_singleton.2 (happend hdirs htoken))
  | rooted h => exact h.isName_segments (List.forall_mem_singleton.2 htoken)
  | absolute _ _ nearest hnearest h =>
    refine h.isName_segments (List.forall_mem_append.2 ⟨?_, ?_⟩)
    · exact List.forall_mem_cons.2 ⟨htoken, List.forall_mem_singleton.2 (happend hdirs htoken)⟩
    · intro path hpath
      obtain ⟨root, hroot, rfl⟩ := List.mem_map.1 hpath
      have hsource := (hnearest root).1 (Option.mem_toList.1 hroot)
      exact happend (fun s hs => hdirs s (hsource.subset hs)) htoken

/-- The search through the suffixes of a base is one through its forms. -/
theorem probe?_eq_find? (language : Language) (present : String → Bool) (base : String) :
    probe? language present base =
      (language.moduleSuffixes.map (withSuffix base)).find? fun file =>
        file != "" && present file := by
  rw [List.find?_eq_findSome?_guard, List.findSome?_map]
  rfl

/-- Searching base by base is searching through the forms of all bases. -/
theorem findSome?_probe? (language : Language) (present : String → Bool) (bs : List String) :
    bs.findSome? (probe? language present) =
      (bs.flatMap fun base => language.moduleSuffixes.map (withSuffix base)).find? fun file =>
        file != "" && present file := by
  rw [List.find?_flatMap, funext (probe?_eq_find? language present)]

theorem resolve?_eq_find? (language : Language) (present : String → Bool) {token source : String}
    {bs : List String}
    (h : AreBases (segments (parentDir source)) language.importStyle (Text.trim token.toList) bs) :
    resolve? language present token source =
      (bs.flatMap fun base => language.moduleSuffixes.map (withSuffix base)).find? fun file =>
        file != "" && present file := by
  have hempty : String.ofList (Text.trim token.toList) = "" ↔ Text.trim token.toList = [] := by
    rw [← String.toList_inj, String.toList_ofList]
    rfl
  rw [areBases_iff.1 h, resolve?, ← findSome?_probe?]
  by_cases htoken : Text.trim token.toList = []
  · rw [if_pos (hempty.2 htoken), if_pos htoken]
    rfl
  · rw [if_neg fun h => htoken (hempty.1 h), if_neg htoken]

/-- The file that a token means is the first one in a list of candidates that is in the tree, an
empty path apart. The list has no regard to the tree: it is given by the bases of the token, each
followed by the suffixes of the language. -/
theorem resolve?_first_candidate (language : Language) (token source : String) :
    ∃ bases, (∀ others, AreBases (segments (parentDir source)) language.importStyle
      (Text.trim token.toList) others ↔
        others = bases) ∧
      (language.importStyle = .path → ∀ base ∈ bases, base = "" ∨ ∀ s ∈ segments base, s ≠ "" ∧
        s ≠ "." ∧ s ≠ "..") ∧
      ∀ present : String → Bool, resolve? language present token source =
        (bases.flatMap fun base => language.moduleSuffixes.map (withSuffix base)).find? fun file =>
          file != "" && present file := by
  refine ⟨_, fun others => areBases_iff, fun hstyle base hbase => ?_, fun present => ?_⟩
  · simp only [← isName_iff]
    exact AreBases.isName_segments (areBases_iff.2 rfl) hstyle base hbase
  · exact resolve?_eq_find? language present (areBases_iff.2 rfl)

/-- Two directories up and down again, and a file that is found before the index of a directory. -/
theorem resolve?_first_candidate_sibling :
    AreBases ["src", "app"] .path "../lib/./x".toList ["src/lib/x"] ∧
      (∀ s ∈ segments "src/lib/x", s ≠ "" ∧ s ≠ "." ∧ s ≠ "..") ∧
      resolve? .javaScript (["src/lib/x/index.js", "src/lib/x.ts"].contains ·)
        "../lib/./x" "src/app/main.js" =
        some "src/lib/x.ts" := by
  obtain ⟨bases, hbases, hnames, hfirst⟩ :=
    resolve?_first_candidate .javaScript "../lib/./x" "src/app/main.js"
  have hareBases : AreBases (segments (parentDir "src/app/main.js")) .path
      (Text.trim "../lib/./x".toList)
      ["src/lib/x"] := areBases_iff.2 (by decide +kernel)
  obtain rfl := (hbases _).1 hareBases
  refine ⟨hareBases, ?_, ?_⟩
  · exact (hnames rfl "src/lib/x" (by simp)).resolve_left (by decide)
  · rw [hfirst]
    decide +kernel

/-! ### Relative imports that climb -/

/-- The number of directories that a directory lies below the root, itself included. -/
def depth (dir : String) : Nat :=
  if dir = "" then 0 else (segments dir).length

/-- Every base may be a file with a suffix. -/
theorem exists_withSuffix_ne (language : Language) (base : String) :
    ∃ suffix ∈ language.moduleSuffixes, withSuffix base suffix ≠ "" := by
  have hsuffix : ∃ suffix ∈ language.moduleSuffixes, withSuffix "" suffix ≠ "" ∧ suffix ≠ "" := by
    cases language <;> decide +kernel
  obtain ⟨suffix, hmem, hroot, hne⟩ := hsuffix
  refine ⟨suffix, hmem, ?_⟩
  by_cases hbase : base = ""
  · rwa [hbase]
  · rw [withSuffix, if_neg hbase]
    intro h
    exact hne (String.append_eq_empty_iff.1 h).2

/-- A token means nothing in every tree exactly when it has no base. -/
theorem forall_resolve?_eq_none_iff {language : Language} {token source : String} {bs : List String}
    (h : AreBases (segments (parentDir source)) language.importStyle (Text.trim token.toList) bs) :
    (∀ present, resolve? language present token source = none) ↔ bs = [] := by
  constructor
  · intro hnone
    rw [List.eq_nil_iff_forall_not_mem]
    intro base hbase
    obtain ⟨suffix, hsuffix, hne⟩ := exists_withSuffix_ne language base
    have hall := hnone fun _ => true
    rw [resolve?_eq_find? language _ h, List.find?_eq_none] at hall
    refine hall (withSuffix base suffix) ?_ (by simpa using hne)
    exact List.mem_flatMap.2 ⟨base, hbase, List.mem_map_of_mem hsuffix⟩
  · rintro rfl present
    rw [resolve?_eq_find? language present h]
    rfl

/-- Once there are as many steps up as directories, the way starts at the root. -/
theorem ofSegments_take_eq_empty {dir : String} {dots : Nat} (h : depth dir ≤ dots) :
    ofSegments ((segments dir).take ((segments dir).length - dots)) = "" := by
  rw [depth] at h
  split at h
  · rename_i hroot
    rw [hroot]
    exact ofSegments_take_root _
  · rw [Nat.sub_eq_zero_of_le h]
    rfl

/-- A relative path has no base exactly when it climbs above the root. -/
theorem exists_areBases_relative (dirs : List String) (rest : List Char) :
    ∃ bs, AreBases dirs .path ('.' :: rest) bs ∧
      (bs = [] ↔ ClimbsAbove (dirs ++ segments (String.ofList ('.' :: rest)))) := by
  by_cases hclimbs : ClimbsAbove (dirs ++ segments (String.ofList ('.' :: rest)))
  · exact ⟨[], .relative (.pass (climbsAbove_iff.1 hclimbs) .nil), iff_of_true rfl hclimbs⟩
  · obtain ⟨parts, hparts⟩ : ∃ parts, IsPlainForm
      (dirs ++ segments (String.ofList ('.' :: rest))) parts := by
      rw [climbsAbove_iff] at hclimbs
      exact not_forall_not.1 hclimbs
    exact ⟨[ofSegments parts], .relative (.keep hparts .nil), iff_of_false (by simp) hclimbs⟩

/-- A relative token means nothing in every tree exactly when it is a path that climbs above the
root. A dotted one goes up no further than to the root: with more dots than there are directories
above the file, it is looked for from the root on. -/
theorem relative_unresolvable_iff (language : Language) {token source : String}
    (hrelative : (Text.trim token.toList).head? = some '.') :
    ((∀ present, resolve? language present token source = none) ↔ language.importStyle = .path ∧
      ClimbsAbove (segments (parentDir source) ++
        segments (String.ofList (Text.trim token.toList)))) ∧
    (language.importStyle = .dotted →
      depth (parentDir source) < ((Text.trim token.toList).takeWhile (· == '.')).length →
      ∀ present, resolve? language present token source =
        (language.moduleSuffixes.map
          (withSuffix (undot ((Text.trim token.toList).dropWhile (· == '.'))))).find? fun file =>
            file != "" && present file) := by
  generalize htoken : Text.trim token.toList = cs at hrelative ⊢
  cases hstyle : language.importStyle with
  | path =>
    obtain ⟨rest, rfl⟩ := List.head?_eq_some_iff.1 hrelative
    obtain ⟨bs, hbases, hnone⟩ := exists_areBases_relative (segments (parentDir source)) rest
    rw [← hstyle, ← htoken] at hbases
    refine ⟨?_, by simp⟩
    rw [forall_resolve?_eq_none_iff hbases, hnone, and_iff_right rfl]
  | dotted =>
    obtain ⟨dots, rest, rfl, hrest⟩ := exists_dots hrelative
    have hbases : AreBases (segments (parentDir source)) .dotted _ _ := .upwards dots hrest
    rw [← hstyle, ← htoken] at hbases
    refine ⟨iff_of_false (fun h => by simpa using (forall_resolve?_eq_none_iff hbases).1 h)
      (by simp), ?_⟩
    intro _ hdepth present
    rw [takeWhile_dots _ hrest, List.length_replicate] at hdepth
    rw [resolve?_eq_find? language present hbases, ofSegments_take_eq_empty (by omega),
      dropWhile_dots _ hrest, List.flatMap_singleton]
    rfl

/-- The file `a.py` lies in the root, so nothing is above it. Yet its import of `..x` means
`x.py`. -/
theorem dotted_import_clamped :
    depth (parentDir "a.py") + 1 < ("..x".toList.takeWhile (· == '.')).length ∧
      (∀ present, resolve? .python present "..x" "a.py" =
        ["x", "x.py", "x/__init__.py"].find? fun file => file != "" && present file) ∧
      resolve? .python (["x.py"].contains ·) "..x" "a.py" = some "x.py" ∧
      ∀ present, resolve? .javaScript present "../x" "a.js" = none := by
  have hdots : depth (parentDir "a.py") + 1 < ("..x".toList.takeWhile (· == '.')).length := by
    decide +kernel
  have hdotted : (Text.trim "..x".toList).head? = some '.' := by decide +kernel
  have hpath : (Text.trim "../x".toList).head? = some '.' := by decide +kernel
  have hroot : ∀ present, resolve? .python present "..x" "a.py" =
      ["x", "x.py", "x/__init__.py"].find? fun file => file != "" && present file :=
    (relative_unresolvable_iff .python hdotted).2 rfl (by decide +kernel)
  have hclimbs : ClimbsAbove (segments (parentDir "a.js") ++
      segments (String.ofList (Text.trim "../x".toList))) :=
    ⟨["", ".."], ⟨["x"], by decide +kernel⟩, by decide +kernel⟩
  refine ⟨hdots, hroot, ?_, (relative_unresolvable_iff .javaScript hpath).1.2 ⟨rfl, hclimbs⟩⟩
  rw [hroot]
  decide +kernel

end CodeSurvey.Import
