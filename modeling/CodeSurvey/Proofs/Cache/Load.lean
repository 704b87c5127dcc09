import CodeSurvey.Cache.Codec
import CodeSurvey.Proofs.Table

/-!
# Loading a store

The entries of a document are taken over one by one. What becomes of an entry is told by its own
name and value: it is skipped, kept or dropped with a warning, whatever the others are like.
-/
namespace CodeSurvey.Cache

/-! ### One entry -/

/-- An entry that is read names its content, and is read in the current form exactly if it has
functions. -/
theorem readEntry_eq_ok_iff {j : Json} {e : Entry} :
    readEntry j = .ok e ↔ e.contentHash ≠ "" ∧
      (if (j.get? "functions").isSome then Entry.ofJson? j = some e
      else ((j.get? "funcs").isSome || (j.get? "contentHash").isSome) ∧
      legacyEntry? j = some (some e)) := by
  unfold readEntry
  split_ifs with hfunctions hlegacy
  · cases Entry.ofJson? j with
    | none => simp
    | some found => grind
  · rcases legacyEntry? j with _ | _ | found
    · simp
    · simp
    · grind
  · simp [hlegacy]

theorem contentHash_of_readEntry {j : Json} {e : Entry} (h : readEntry j = .ok e) :
    e.contentHash ≠ "" :=
  (readEntry_eq_ok_iff.1 h).1

theorem kind_of_legacyEntry? {j : Json} {e : Entry} (h : legacyEntry? j = some (some e)) :
    e.hashKind = .legacySha256 ∧ e.patternVersion = none := by
  unfold legacyEntry? at h
  obtain ⟨fs, -, h⟩ := Option.bind_eq_some_iff.1 h
  obtain ⟨hash, -, h⟩ := Option.bind_eq_some_iff.1 h
  obtain ⟨parsedAt, -, h⟩ := Option.bind_eq_some_iff.1 h
  obtain ⟨functions, -, h⟩ := Option.bind_eq_some_iff.1 h
  obtain ⟨fileMeta, -, h⟩ := Option.bind_eq_some_iff.1 h
  obtain ⟨contentHash, -, rfl⟩ := Option.map_eq_some_iff.1 (Option.some.inj h)
  exact ⟨rfl, rfl⟩

/-- Without a member for its functions an entry has the older form. -/
theorem kind_of_readEntry {j : Json} {e : Entry} (hform : j.get? "functions" = none)
    (h : readEntry j = .ok e) :
    e.hashKind = .legacySha256 ∧ e.patternVersion = none := by
  have hread := (readEntry_eq_ok_iff.1 h).2
  rw [hform] at hread
  exact kind_of_legacyEntry? hread.2

namespace Store

/-- A name with an underscore in front, which is not taken for that of a file when a store is
read. -/
def isHidden (path : String) : Bool :=
  path.toList.head? == some '_'

/-- The entry that a member gives, under its name. -/
def kept? (m : String × Json) : Option (String × Entry) :=
  if isHidden m.1 then none
  else
    match readEntry m.2 with
    | .ok e => some (m.1, e)
    | .error _ => none

/-- What is said of a member that gives no entry. -/
def discarded? (m : String × Json) : Option Warning :=
  if isHidden m.1 then none
  else
    match readEntry m.2 with
    | .ok _ => none
    | .error fault => some (.entryDiscarded m.1 fault)

theorem loadEntry_eq (entries : Table Entry) (warnings : List Warning) (m : String × Json) :
    loadEntry (entries, warnings) m =
      ((kept? m).toList.foldl (fun t (k, v) => t.insert k v) entries,
        warnings ++ (discarded? m).toList) := by
  obtain ⟨path, j⟩ := m
  have hhidden : (path.toList.head? == some '_') = isHidden path := rfl
  rw [loadEntry, hhidden, kept?, discarded?]
  split_ifs
  · simp
  · cases readEntry j <;> simp

theorem foldl_loadEntry (members : List (String × Json)) (entries : Table Entry)
    (warnings : List Warning) :
    members.foldl loadEntry (entries, warnings) =
      ((members.filterMap kept?).foldl (fun t (k, v) => t.insert k v) entries,
        warnings ++ members.filterMap discarded?) := by
  induction members generalizing entries warnings with
  | nil => simp
  | cons m members ih =>
    rw [List.foldl_cons, loadEntry_eq, ih, List.filterMap_cons, List.filterMap_cons]
    cases kept? m <;> cases discarded? m <;> simp

/-! ### Where the entries lie -/

/-- The number that a document gives for its schema. -/
def version? (document : Json) : Option Nat :=
  (document.get? "schemaVersion").bind versionNumber?

/-- The members of a document that are its entries, in each of the three layouts. -/
inductive Selects : Json → List (String × Json) → Prop
  | versioned {document : Json} {v : Nat} {members : List (String × Json)}
      (hversion : version? document = some v)
      (hentries : (document.get? "entries").getD (.obj []) = .obj members) :
        Selects document members
  | marked {document marker : Json} {members : List (String × Json)}
      (hversion : version? document = none)
      (hmarker : document.get? "_schema_version" = some marker)
      (hentries : (document.get? "files").getD document = .obj members) : Selects document members
  | flat {members : List (String × Json)} (hversion : version? (.obj members) = none)
      (hmarker : Json.get? "_schema_version" (.obj members) = none) : Selects (.obj members) members

theorem exists_obj_of_get? {j value : Json} {name : String} (h : j.get? name = some value) :
    ∃ members, j = .obj members := by
  unfold Json.get? at h
  split at h
  · exact ⟨_, rfl⟩
  · cases h

/-- The time that a document gives for its store; documents of older layouts are taken over now. -/
def creationTime (now : String) (document : Json) : String :=
  if version? document = some schemaVersion then
    ((document.get? "createdAt").bind Json.str?).getD now
  else now

/-- What is said of a store that was taken over from an older layout. -/
def upgrade (document : Json) (kept : Nat) : List Warning :=
  if version? document = some schemaVersion then []
  else [.storeUpgraded (layout document).label schemaVersion kept]

theorem path?_of_mem_upgrade {document : Json} {kept : Nat} {w : Warning}
    (h : w ∈ upgrade document kept) :
    w.path? = none := by
  rw [upgrade] at h
  split at h
  · cases h
  · rw [List.mem_singleton.1 h]
    rfl

theorem layout_of_selects {document : Json} {members : List (String × Json)}
    (h : Selects document members) :
    (layout document).entries = .obj members ∧
      (layout document).isCurrent = decide (version? document = some schemaVersion) := by
  cases h with
  | versioned hversion hentries =>
    rw [version?] at hversion
    rw [layout, version?, hversion]
    exact ⟨hentries, by simp [Bool.beq_eq_decide_eq]⟩
  | marked hversion hmarker hentries =>
    rw [version?] at hversion
    rw [layout, version?, hversion, hmarker]
    exact ⟨hentries, rfl⟩
  | flat hversion hmarker =>
    rw [version?] at hversion
    rw [layout, version?, hversion, hmarker]
    exact ⟨rfl, rfl⟩

theorem ofJson_of_selects {document : Json} {members : List (String × Json)}
    (h : Selects document members) (now : String) :
    ofJson now document =
      (⟨creationTime now document, Table.ofList (members.filterMap kept?)⟩,
        members.filterMap discarded? ++
          upgrade document (Table.ofList (members.filterMap kept?)).length) := by
  obtain ⟨root, rfl⟩ : ∃ root, document = .obj root := by
    cases h with
    | versioned hversion _ =>
      obtain ⟨value, hvalue, -⟩ := Option.bind_eq_some_iff.1 hversion
      exact exists_obj_of_get? hvalue
    | marked _ hmarker _ => exact exists_obj_of_get? hmarker
    | flat _ _ => exact ⟨_, rfl⟩
  obtain ⟨hentries, hcurrent⟩ := layout_of_selects h
  rw [ofJson]
  simp only [hentries, hcurrent, foldl_loadEntry, List.nil_append, decide_eq_true_eq]
  rfl

theorem warnings_ofJson {document : Json} {members : List (String × Json)}
    (h : Selects document members) (now : String) :
    (ofJson now document).2 =
      members.filterMap discarded? ++ upgrade document (ofJson now document).1.size := by
  rw [ofJson_of_selects h]
  rfl

/-! ### Each entry on its own -/

/-- The warnings that name a path. -/
def about (path : String) (warnings : List Warning) : List Warning :=
  warnings.filter (·.path? == some path)

theorem eq_of_kept? {m : String × Json} {p : String × Entry} (h : kept? m = some p) :
    p.1 = m.1 ∧ readEntry m.2 = .ok p.2 := by
  rw [kept?] at h
  split at h
  · cases h
  · split at h
    · obtain rfl := Option.some.inj h
      exact ⟨rfl, ‹_›⟩
    · cases h

theorem eq_of_discarded? {m : String × Json} {w : Warning} (h : discarded? m = some w) :
    ∃ fault, w = .entryDiscarded m.1 fault := by
  rw [discarded?] at h
  split at h
  · cases h
  · split at h
    · cases h
    · exact ⟨_, (Option.some.inj h).symm⟩

section
variable {document : Json} {members : List (String × Json)} (h : Selects document members)
  (hsorted : Table.Sorted members) (now : String)
include h hsorted

theorem entries_ofJson : (ofJson now document).1.entries = members.filterMap kept? := by
  have hkept : Table.Sorted (members.filterMap kept?) := by
    refine List.Pairwise.filterMap _ (fun m m' hlt p hp p' hp' => ?_) hsorted
    rw [(eq_of_kept? hp).1, (eq_of_kept? hp').1]
    exact hlt
  rw [ofJson_of_selects h]
  exact hkept.ofList_eq

theorem get?_ofJson (path : String) :
    (ofJson now document).1.get? path =
      (members.lookup path).bind fun j => (kept? (path, j)).map Prod.snd := by
  rw [get?, entries_ofJson h hsorted]
  exact hsorted.get?_filterMap (fun m p hp => (eq_of_kept? hp).1) path

theorem about_ofJson (path : String) :
    about path (ofJson now document).2 =
      ((members.lookup path).bind fun j => discarded? (path, j)).toList := by
  have hkey : ∀ m w, discarded? m = some w → w.path? = some m.1 := by
    intro m w hw
    obtain ⟨fault, rfl⟩ := eq_of_discarded? hw
    rfl
  have hupgrade : ∀ kept, (upgrade document kept).filter (·.path? == some path) = [] := fun kept =>
    List.filter_eq_nil_iff.2 fun w hw => by simp [path?_of_mem_upgrade hw]
  rw [warnings_ofJson h, about, List.filter_append, hupgrade, List.append_nil]
  exact hsorted.filter_filterMap hkey path

theorem exists_of_get?_ofJson {path : String} {e : Entry}
    (he : (ofJson now document).1.get? path = some e) :
    ∃ j, members.lookup path = some j ∧ readEntry j = .ok e := by
  rw [get?_ofJson h hsorted] at he
  obtain ⟨j, hj, he⟩ := Option.bind_eq_some_iff.1 he
  obtain ⟨p, hp, rfl⟩ := Option.map_eq_some_iff.1 he
  exact ⟨j, hj, (eq_of_kept? hp).2⟩

theorem path?_ofJson : ((ofJson now document).2.filterMap Warning.path?).Pairwise (· < ·) := by
  have hupgrade : ∀ kept, (upgrade document kept).filterMap Warning.path? = [] := fun kept =>
    List.filterMap_eq_nil_iff.2 fun w hw => path?_of_mem_upgrade hw
  have hpath : ∀ m path, (discarded? m).bind Warning.path? = some path → path = m.1 := by
    intro m path hpath
    obtain ⟨w, hw, hpath⟩ := Option.bind_eq_some_iff.1 hpath
    obtain ⟨fault, rfl⟩ := eq_of_discarded? hw
    exact (Option.some.inj hpath).symm
  rw [warnings_ofJson h, List.filterMap_append, hupgrade, List.append_nil, List.filterMap_filterMap]
  refine List.Pairwise.filterMap _ (fun m m' hlt path hp path' hp' => ?_) hsorted
  rw [hpath m path hp, hpath m' path' hp']
  exact hlt

end

/-- The members that give an entry. -/
def isKept (m : String × Json) : Bool :=
  !isHidden m.1 && (readEntry m.2).isOk

theorem map_fst_filterMap_kept? (members : List (String × Json)) :
    (members.filterMap kept?).map Prod.fst = (members.filter isKept).map Prod.fst := by
  induction members with
  | nil => rfl
  | cons m members ih =>
    rw [List.filterMap_cons, List.filter_cons, kept?, isKept]
    cases isHidden m.1 <;> cases readEntry m.2 <;> simp [Except.isOk, Except.toBool, ih]

/-- What loading makes of the members of the entries. -/
structure LoadsEach (document : Json) (members : List (String × Json)) (store : Store)
    (warnings : List Warning) :
    Prop where
  hidden : ∀ m ∈ members, isHidden m.1 = true → store.get? m.1 = none ∧ about m.1 warnings = []
  kept : ∀ m ∈ members, isHidden m.1 = false → ∀ e, readEntry m.2 = .ok e →
    store.get? m.1 = some e ∧ about m.1 warnings = []
  dropped : ∀ m ∈ members, isHidden m.1 = false → ∀ fault, readEntry m.2 = .error fault →
    store.get? m.1 = none ∧ about m.1 warnings = [.entryDiscarded m.1 fault]
  no_other : ∀ path, path ∉ members.map Prod.fst → store.get? path = none ∧ about path warnings = []
  names : store.entries.keys = (members.filter isKept).map Prod.fst
  ordered : (warnings.filterMap Warning.path?).Pairwise (· < ·)
  hashed : ∀ path e, store.get? path = some e → e.contentHash ≠ ""
  legacy : ∀ m ∈ members, m.2.get? "functions" = none → ∀ e, store.get? m.1 = some e →
    e.hashKind = .legacySha256 ∧ e.patternVersion = none
  /-- After all that is dropped, a document of another version is said to be upgraded. -/
  upgraded : ∃ discarded, warnings = discarded ++ upgrade document store.size ∧
    ∀ w ∈ discarded, ∃ path fault, w = .entryDiscarded path fault

/-- The entries of a document, whose names ascend as in every plain value, are loaded each on its
own. Two documents that give the same value to a name agree on what becomes of it. -/
theorem ofJson_loads_each {document : Json} {members : List (String × Json)}
    (h : Selects document members) (hsorted : Table.Sorted members) (now : String) :
    LoadsEach document members (ofJson now document).1 (ofJson now document).2 ∧
      ∀ {other : Json} {others : List (String × Json)}, Selects other others → Table.Sorted others →
        ∀ path, others.lookup path = members.lookup path →
          (ofJson now other).1.get? path = (ofJson now document).1.get? path ∧
            about path (ofJson now other).2 = about path (ofJson now document).2 := by
  have hget := get?_ofJson h hsorted now
  have habout := about_ofJson h hsorted now
  have hlookup : ∀ m ∈ members, members.lookup m.1 = some m.2 := fun m hm => hsorted.mem_iff.1 hm
  refine ⟨⟨?_, ?_, ?_, ?_, ?_, path?_ofJson h hsorted now, ?_, ?_, ?_⟩, ?_⟩
  · intro m hm hhidden
    rw [hget, habout, hlookup m hm]
    simp [kept?, discarded?, hhidden]
  · intro m hm hhidden e he
    rw [hget, habout, hlookup m hm]
    simp [kept?, discarded?, hhidden, he]
  · intro m hm hhidden fault hfault
    rw [hget, habout, hlookup m hm]
    simp [kept?, discarded?, hhidden, hfault]
  · intro path hpath
    have hnone : members.lookup path = none := by
      rw [← Option.not_isSome_iff_eq_none]
      exact fun hsome => hpath (Table.mem_keys_iff.2 hsome)
    rw [hget, habout, hnone]
    exact ⟨rfl, rfl⟩
  · rw [entries_ofJson h hsorted]
    exact map_fst_filterMap_kept? members
  · intro path e he
    obtain ⟨j, -, hread⟩ := exists_of_get?_ofJson h hsorted now he
    exact contentHash_of_readEntry hread
  · intro m hm hform e he
    obtain ⟨j, hj, hread⟩ := exists_of_get?_ofJson h hsorted now he
    obtain rfl := Option.some.inj ((hlookup m hm).symm.trans hj)
    exact kind_of_readEntry hform hread
  · refine ⟨_, warnings_ofJson h now, ?_⟩
    intro w hw
    obtain ⟨m, -, hw⟩ := List.mem_filterMap.1 hw
    exact ⟨m.1, eq_of_discarded? hw⟩
  · intro other others hother hothers path hpath
    rw [hget, habout, get?_ofJson hother hothers, about_ofJson hother hothers, hpath]
    exact ⟨rfl, rfl⟩

/-- An entry of an older store is kept between one that cannot be read and a marker. -/
theorem ofJson_loads_each_marked :
    let members : List (String × Json) :=
      [("_schema_version", .str "1"), ("a.py", .obj [("contentHash", .str "0a")]),
        ("b.py", .arr [])]
    let loaded := ofJson "now" (.obj members)
    Selects (.obj members) members ∧ Table.Sorted members ∧
      loaded.1.get? "a.py" = some ⟨"0a", .legacySha256, none, "", .empty⟩ ∧
      about "b.py" loaded.2 = [.entryDiscarded "b.py" .unknownLayout] := by
  intro members loaded
  have hselects : Selects (.obj members) members := .marked rfl rfl rfl
  have hsorted : Table.Sorted members := by decide
  obtain ⟨heach, -⟩ := ofJson_loads_each hselects hsorted "now"
  refine ⟨hselects, hsorted, ?_, ?_⟩
  · exact (heach.kept ("a.py", .obj [("contentHash", .str "0a")]) (by simp [members]) rfl _ rfl).1
  · exact (heach.dropped ("b.py", .arr []) (by simp [members]) rfl _ rfl).2

end Store

end CodeSurvey.Cache
