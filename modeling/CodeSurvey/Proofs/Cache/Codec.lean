import CodeSurvey.Proofs.Cache.Load
import CodeSurvey.Proofs.Json.Document
import CodeSurvey.Proofs.Json.Record
import Mathlib.Data.List.Basic

/-!
# Stores read back

A store whose numbers fit their fields is read back from its text entry by entry, except for the
entries of names with an underscore in front.
-/
namespace CodeSurvey

open Json (Exact Holds)

/-! ### Functions and entry points -/

theorem ScopeKind.ofLabel?_label (k : ScopeKind) : ScopeKind.ofLabel? k.label = some k := by
  cases k <;> decide

theorem EntryKind.ofLabel?_label (k : EntryKind) : EntryKind.ofLabel? k.label = some k := by
  cases k <;> decide

theorem Json.exact_obj {members : List (String × Json)} (h : Json.Each Exact members) :
    Exact (.obj members) :=
  .obj h

theorem Json.exact_map {α : Type} {f : α → Json} {xs : List α} (h : ∀ x ∈ xs, Exact (f x)) :
    Exact (.arr (xs.map f)) :=
  .arr (by simpa using h)

theorem Parameter.exact_toJson (p : Parameter) : Exact p.toJson :=
  Json.exact_obj (by simp [Exact.str])

theorem Parameter.holds_toJson (p : Parameter) (levels : Nat) :
    Holds Parameter.ofJson? (levels + 1) p.toJson p := by
  refine Json.holds_record (fun _ => rfl) (by simp) ?_ fun fs h => ?_
  · cases p.typeName <;> cases p.defaultValue <;> simp [Json.member?]
  · have hname := h.required "name" (by simp) (by simp) (Json.holds_str p.name)
    have htype := h.optional "type" (v := p.typeName) (by simp) (by simp [List.lookup_append]) rfl
      fun s _ => Json.holds_str s
    have hdefault := h.optional "default" (v := p.defaultValue) (by simp)
      (by simp [List.lookup_append]) rfl
      fun s _ => Json.holds_str s
    simp [hname, htype, hdefault]

theorem Declaration.exact_toJson {d : Declaration} (hline : d.line < UInt64.size) :
    Exact d.toJson :=
  Json.exact_obj
    (by simp [Exact.str, Exact.bool, Exact.nat hline, Json.exact_map, Parameter.exact_toJson])

theorem Declaration.holds_toJson {d : Declaration} (hline : d.line < UInt64.size) (levels : Nat) :
    Holds Declaration.ofJson? (levels + 3) d.toJson d := by
  have hps := Json.holds_list fun p (_ : p ∈ d.params) => p.holds_toJson levels
  refine Json.holds_record (fun _ => rfl) (by simp [hps.isSome]) ?_ fun fs h => ?_
  · cases d.returnType <;> cases d.purpose <;> simp [Json.member?]
  · have hname := h.required "name" (by simp) rfl (Json.holds_str d.name)
    have hlineNo := h.required "line" (by simp) rfl (Json.holds_natBelow hline)
    have hscope := h.required "scope" (by simp) rfl
      (Json.holds_looselyLabelled (ScopeKind.ofLabel?_label d.scope))
    have hsignature := h.required "signature" (by simp) rfl (Json.holds_str d.signature)
    have hparams := h.defaulted "params" (by simp) rfl hps []
    have hreturn := h.optional "returnType" (v := d.returnType) (by simp)
      (by simp [List.lookup_append]) rfl
      fun s _ => Json.holds_str s
    have hpurpose := h.optional "purpose" (v := d.purpose) (by simp)
      (by simp [List.lookup_append]) rfl
      fun s _ => Json.holds_str s
    have hexported := h.defaulted "exported" (by simp) (by simp [List.lookup_append])
      (Json.holds_bool d.exported) false
    simp [hname, Json.nat?, hlineNo, hscope, hsignature, hparams, hreturn, hpurpose, hexported]

theorem EntryPoint.exact_toJson {e : EntryPoint} (hline : e.line < UInt64.size) : Exact e.toJson :=
  Json.exact_obj (by simp [Exact.str, Exact.bool, Exact.nat hline])

theorem EntryPoint.holds_toJson {e : EntryPoint} (hline : e.line < UInt64.size) (levels : Nat) :
    Holds EntryPoint.ofJson? (levels + 1) e.toJson e := by
  refine Json.holds_record (fun _ => rfl) (by simp) (by simp) fun fs h => ?_
  have hkind := h.required "type" (by simp) rfl
    (Json.holds_looselyLabelled (EntryKind.ofLabel?_label e.kind))
  have hname := h.required "name" (by simp) rfl (Json.holds_str e.name)
  have hfile := h.required "file" (by simp) rfl (Json.holds_str e.file)
  have hlineNo := h.required "line" (by simp) rfl (Json.holds_natBelow hline)
  have htrigger := h.required "trigger" (by simp) rfl (Json.holds_str e.trigger)
  have hactive := h.defaulted "isActive" (by simp) rfl (Json.holds_bool e.isActive) true
  simp [hkind, hname, hfile, Json.nat?, hlineNo, htrigger, hactive]

/-! ### Extractions -/

theorem Json.exact_strings (xs : List String) : Exact (.strings xs) :=
  Json.exact_map fun s _ => .str s

theorem Json.holds_strings (xs : List String) (levels : Nat) :
    Holds (Json.list? Json.str?) (levels + 1) (.strings xs) xs :=
  Json.holds_list fun s _ => Json.holds_str s

theorem ImportTokens.exact_toJson (i : ImportTokens) : Exact i.toJson :=
  Json.exact_obj (by simp [Json.exact_strings])

theorem ImportTokens.holds_toJson (i : ImportTokens) (levels : Nat) :
    Holds ImportTokens.ofJson? (levels + 2) i.toJson i := by
  have hin := Json.holds_strings i.internal levels
  have hex := Json.holds_strings i.external levels
  refine Json.holds_record (fun _ => rfl) (by simp [hin.isSome, hex.isSome]) (by simp) fun fs h =>
    ?_
  have hinternal := h.defaulted "internal" (by simp) rfl hin []
  have hexternal := h.defaulted "external" (by simp) rfl hex []
  simp [hinternal, hexternal]

/-- The line numbers fit 64 bits. -/
structure Extraction.Writable (x : Extraction) : Prop where
  functions : ∀ d ∈ x.functions, d.line < UInt64.size
  entryPoints : ∀ e ∈ x.fileMeta.entryPoints, e.line < UInt64.size

theorem FileMeta.exact_toJson {m : FileMeta} (hlines : ∀ e ∈ m.entryPoints, e.line < UInt64.size) :
    Exact m.toJson := by
  have hpoints : Exact (.arr (m.entryPoints.map EntryPoint.toJson)) :=
    Json.exact_map fun e he => EntryPoint.exact_toJson (hlines e he)
  exact Json.exact_obj (by simp [Exact.str, Exact.bool, ImportTokens.exact_toJson, hpoints])

theorem FileMeta.holds_toJson {m : FileMeta} (hlines : ∀ e ∈ m.entryPoints, e.line < UInt64.size)
    (levels : Nat) : Holds FileMeta.ofJson? (levels + 3) m.toJson m := by
  have hpoints := Json.holds_list fun e he => EntryPoint.holds_toJson (hlines e he) levels
  have htokens := m.imports.holds_toJson levels
  refine Json.holds_record (fun _ => rfl) (by simp [hpoints.isSome, htokens.isSome]) ?_ fun fs h =>
    ?_
  · cases m.purpose <;> simp [Json.member?]
  · have hlanguage := h.required "language" (by simp) rfl (Json.holds_str m.language)
    have hpurpose := h.optional "purpose" (v := m.purpose) (by simp)
      (by simp [List.lookup_append]) rfl
      fun s _ => Json.holds_str s
    have himports := h.defaulted "imports" (by simp) (by simp [List.lookup_append]) htokens ⟨[], []⟩
    have hentries := h.defaulted "entryPoints" (by simp) (by simp [List.lookup_append]) hpoints []
    have htruncated := h.defaulted "wasTruncated" (by simp) (by simp [List.lookup_append])
      (Json.holds_bool m.wasTruncated) false
    simp [hlanguage, hpurpose, himports, hentries, htruncated]

/-! ### Entries -/

namespace Cache

theorem HashKind.ofLabel?_label (k : HashKind) : HashKind.ofLabel? k.label = some k := by
  cases k <;> rfl

/-- The numbers of an entry fit their fields, and its content is named. -/
structure Entry.Writable (e : Entry) : Prop where
  hash : e.contentHash ≠ ""
  version : ∀ v ∈ e.patternVersion, v < UInt32.size
  extraction : e.extraction.Writable

/-- The members of an entry as they are written. -/
def Entry.members (e : Entry) : List (String × Json) :=
  ("contentHash", .str e.contentHash) ::
    (if e.hashKind = .blake3 then [] else [("hashKind", .str e.hashKind.label)]) ++
    Json.member? "patternVersion" .ofNat e.patternVersion ++
    ("parsedAt", .str e.parsedAt) :: e.extraction.members

theorem Entry.nodup_members (e : Entry) : (e.members.map Prod.fst).Nodup := by
  unfold members
  cases e.hashKind <;> cases e.patternVersion <;> simp [Json.member?, Extraction.members]

theorem Entry.lookup_functions (e : Entry) :
    e.members.lookup "functions" = some (.arr (e.extraction.functions.map Declaration.toJson)) := by
  unfold members
  split <;> simp [List.lookup_append, Extraction.members]

section
variable {e : Entry} (h : e.Writable)
include h

theorem Entry.exact_toJson : Exact e.toJson := by
  have hfunctions : Exact (.arr (e.extraction.functions.map Declaration.toJson)) :=
    Json.exact_map fun d hd => Declaration.exact_toJson (h.extraction.functions d hd)
  have hmeta := FileMeta.exact_toJson h.extraction.entryPoints
  have hversion : ∀ v ∈ e.patternVersion, Exact (.ofNat v) := fun v hv =>
    .nat (Nat.lt_trans (h.version v hv) (by decide))
  refine Json.exact_obj ?_
  split <;> simpa [Exact.str, Extraction.members, hfunctions, hmeta] using hversion

theorem Entry.holds_functions (levels : Nat) :
    Holds (Json.list? Declaration.ofJson?) (levels + 4)
      (.arr (e.extraction.functions.map Declaration.toJson)) e.extraction.functions :=
  Json.holds_list fun d hd => Declaration.holds_toJson (h.extraction.functions d hd) levels

theorem Entry.plain_members (levels : Nat) :
    Json.Each (fun j => (j.plainWithin? (levels + 4)).isSome) e.members := by
  have hfunctions := (Entry.holds_functions h levels).isSome
  have hmeta := (FileMeta.holds_toJson h.extraction.entryPoints (levels + 1)).isSome
  unfold members
  split <;> simp [Extraction.members, hfunctions, hmeta]

theorem Entry.holds_toJson (levels : Nat) : Holds Entry.ofJson? (levels + 5) e.toJson e := by
  refine Json.holds_record (fun _ => rfl)
    (Entry.plain_members h levels) e.nodup_members fun fs hfs => ?_
  have hhash := hfs.required "contentHash" (by simp) rfl (Json.holds_str e.contentHash)
  have hkind : Json.defaulted fs "hashKind" .blake3 (Json.labelled? HashKind.ofLabel?) =
      some e.hashKind := by
    by_cases hk : e.hashKind = .blake3
    · rw [hk]
      exact hfs.missing "hashKind" (by simp)
        (by simp [Entry.members, hk, List.lookup_append, Extraction.members]) HashKind.blake3
    · exact hfs.defaulted "hashKind" (by simp) (by simp [Entry.members, hk])
        (Json.holds_labelled (HashKind.ofLabel?_label e.hashKind)) .blake3
  have hversion := hfs.optional "patternVersion" (v := e.patternVersion) (by simp)
    (by unfold members; split <;> simp [List.lookup_append, Extraction.members]) rfl
    fun v hv => Json.holds_natBelow (h.version v hv)
  have hparsed := hfs.defaulted "parsedAt" (by simp)
    (by unfold members; split <;> simp [List.lookup_append]) (Json.holds_str e.parsedAt) ""
  have hfunctions := hfs.required "functions" (by simp) e.lookup_functions
    (Entry.holds_functions h levels)
  have hmeta := hfs.required "meta" (by simp)
    (by unfold members; split <;> simp [List.lookup_append, Extraction.members])
    (FileMeta.holds_toJson h.extraction.entryPoints (levels + 1))
  simp [Extraction.ofFields?, hhash, hkind, hversion, hparsed, hfunctions, hmeta]

theorem Entry.readEntry_plain (levels : Nat) :
    ∃ plain, e.toJson.plainWithin? (levels + 5) = some plain ∧ readEntry plain = .ok e := by
  obtain ⟨plain, hplain, hread⟩ := Entry.holds_toJson h levels
  have hfunctions : (plain.get? "functions").isSome := by
    rw [Json.get?_plain (Entry.plain_members h levels) e.nodup_members hplain, e.lookup_functions,
      Option.bind_some]
    exact (Entry.holds_functions h levels).isSome
  refine ⟨plain, hplain, ?_⟩
  simp [readEntry, hfunctions, hread, h.hash]

end

/-! ### Stores -/

namespace Store

/-- A store whose text can be read back. -/
structure Writable (s : Store) : Prop where
  sorted : s.entries.Sorted
  entries : ∀ e ∈ s.entries, e.2.Writable

/-- The plain value of an entry. -/
def plainEntry (e : Entry) : Json :=
  (e.toJson.plainWithin? 125).getD .null

theorem readEntry_plainEntry {e : Entry} (h : e.Writable) : readEntry (plainEntry e) = .ok e := by
  obtain ⟨plain, hplain, hread⟩ := Entry.readEntry_plain h 120
  rw [plainEntry, hplain]
  exact hread

theorem kept?_plainEntry (path : String) {e : Entry} (h : e.Writable) :
    kept? (path, plainEntry e) = if isHidden path then none else some (path, e) := by
  rw [kept?, readEntry_plainEntry h]

theorem discarded?_plainEntry (path : String) {e : Entry} (h : e.Writable) :
    discarded? (path, plainEntry e) = none := by
  rw [discarded?, readEntry_plainEntry h]
  exact ite_self _

section
variable {s : Store} (h : s.Writable)
include h

theorem plain_entries :
    (Json.ofTable Entry.toJson s.entries).plainWithin? 126 =
      some (.obj (s.entries.map fun e => (e.1, plainEntry e.2))) := by
  have heach : Json.Each (fun j => (j.plainWithin? 125).isSome)
      (s.entries.map fun e => (e.1, e.2.toJson)) := by
    intro m hm
    obtain ⟨e, he, rfl⟩ := List.mem_map.1 hm
    exact (Entry.holds_toJson (h.entries e he) 120).isSome
  have hmembers : Json.plainMembers 125 (s.entries.map fun e => (e.1, e.2.toJson)) =
      s.entries.map fun e => (e.1, plainEntry e.2) := by
    rw [Json.plainMembers, List.map_map]
    rfl
  have hsorted : Table.Sorted (s.entries.map fun e => (e.1, plainEntry e.2)) :=
    List.pairwise_map.2 h.sorted
  calc (Json.ofTable Entry.toJson s.entries).plainWithin? 126
      = some (.obj
        (Table.ofList (Json.plainMembers 125 (s.entries.map fun e => (e.1, e.2.toJson))))) :=
        Json.plainWithin?_obj heach
    _ = some (.obj (s.entries.map fun e => (e.1, plainEntry e.2))) := by
        rw [hmembers, hsorted.ofList_eq]

theorem exact_toJson : Exact s.toJson := by
  have hentries : Exact (.ofTable Entry.toJson s.entries) := by
    refine Json.exact_obj ?_
    intro m hm
    obtain ⟨e, he, rfl⟩ := List.mem_map.1 hm
    exact Entry.exact_toJson (h.entries e he)
  have hversion : Exact (.ofNat schemaVersion) := .nat (by decide)
  exact Json.exact_obj (by simp [hversion, Exact.str, hentries])

theorem exists_plain :
    ∃ members, s.toJson.plain? = some (.obj members) ∧
      Json.get? "schemaVersion" (.obj members) = some (.ofNat schemaVersion) ∧
      Json.get? "createdAt" (.obj members) = some (.str s.createdAt) ∧
      Json.get? "entries" (.obj members) =
        some (.obj (s.entries.map fun e => (e.1, plainEntry e.2))) := by
  have heach : Json.Each (fun j => (j.plainWithin? 126).isSome)
      [("schemaVersion", .ofNat schemaVersion), ("createdAt", .str s.createdAt),
        ("entries", .ofTable Entry.toJson s.entries)] := by
    simp [plain_entries h]
  have hplain := Json.plainWithin?_obj heach
  have hget := Json.get?_plain heach (by simp) hplain
  exact ⟨_, hplain, by rw [hget]; simp, by rw [hget]; simp, by rw [hget]; simp [plain_entries h]⟩

/-- The value of a store is read back but for the entries of hidden names. -/
theorem exists_ofJson (now : String) :
    ∃ value, s.toJson.plain? = some value ∧
    ofJson now value = (s.retain fun path => !isHidden path, []) := by
  obtain ⟨members, hplain, hversion, hcreated, hentries⟩ := exists_plain h
  have hcurrent : version? (.obj members) = some schemaVersion := by
    rw [version?, hversion]
    rfl
  have hselects : Selects (.obj members) (s.entries.map fun e => (e.1, plainEntry e.2)) :=
    .versioned hcurrent (by rw [hentries]; rfl)
  have hkept : (s.entries.map fun e => (e.1, plainEntry e.2)).filterMap kept? =
      s.entries.filter fun e => !isHidden e.1 := by
    rw [List.filterMap_map, ← List.filterMap_eq_filter]
    refine List.filterMap_congr fun e he => (kept?_plainEntry e.1 (h.entries e he)).trans ?_
    cases hhidden : isHidden e.1 <;> simp [Option.guard, hhidden]
  have hdiscarded : (s.entries.map fun e => (e.1, plainEntry e.2)).filterMap discarded? = [] := by
    rw [List.filterMap_map, List.filterMap_eq_nil_iff]
    exact fun e he => discarded?_plainEntry e.1 (h.entries e he)
  refine ⟨_, hplain, ?_⟩
  rw [ofJson_of_selects hselects, hkept, hdiscarded, (h.sorted.filter _).ofList_eq, creationTime,
    upgrade, if_pos hcurrent, if_pos hcurrent, hcreated]
  rfl

theorem parse?_print (now : String) :
    parse? now s.print = some (s.retain fun path => !isHidden path, []) := by
  obtain ⟨value, hplain, hread⟩ := exists_ofJson h now
  rw [parse?, Json.parsePlain?, print, (exact_toJson h).parse?_compact, Option.bind_some, hplain,
    Option.map_some, hread]

end

/-- A store whose names have no underscore in front is read back whole and without a warning, from
the plain value that it is written as and from the text of that value. -/
theorem reads_back {s : Store} (h : s.Writable) (hvisible : ∀ e ∈ s.entries, isHidden e.1 = false)
    (now : String) :
    (∃ value, s.toJson.plain? = some value ∧ ofJson now value = (s, [])) ∧
      parse? now s.print = some (s, []) := by
  have hall : (s.retain fun path => !isHidden path) = s := by
    have hentries : (s.entries.filter fun e => !isHidden e.1) = s.entries :=
      List.filter_eq_self.2 fun e he => by simp [hvisible e he]
    rw [retain, hentries]
  have hvalue := exists_ofJson h now
  have htext := parse?_print h now
  rw [hall] at hvalue htext
  exact ⟨hvalue, htext⟩

/-- One entry is of an older kind and has a function and an entry point; the other one is of the
present kind. -/
theorem reads_back_mixed :
    let method : Declaration :=
      { name := "A.f", line := 3, scope := .type, signature := "f(n: int = 0, m)"
        params := [⟨"n", some "int", some "0"⟩, ⟨"m", none, none⟩]
        returnType := none, purpose := some "Counts.", exported := true }
    let x : Extraction :=
      ⟨[method], "Python", some "A file.", ⟨["os"], ["numpy"]⟩,
        [.new .mainFunction "main" "a.py" 9], true⟩
    let s : Store :=
      ⟨"then", [("a.py", ⟨"0a", .legacySha256, none, "", x⟩),
        ("b.py", ⟨"0b", .blake3, some 1, "now", .empty⟩)]⟩
    s.Writable ∧ (∀ e ∈ s.entries, isHidden e.1 = false) ∧
      (∃ value, s.toJson.plain? = some value ∧ ofJson "later" value = (s, [])) ∧
      parse? "later" s.print = some (s, []) := by
  intro method x s
  have hx : x.Writable :=
    ⟨List.forall_mem_singleton.2 (by decide), List.forall_mem_singleton.2 (by decide)⟩
  have hwritable : s.Writable := by
    refine ⟨by decide, List.forall_mem_cons.2
      ⟨⟨by decide, nofun, hx⟩, List.forall_mem_singleton.2 ⟨by decide, ?_, ?_⟩⟩⟩
    · rintro v ⟨⟩
      decide
    · exact ⟨nofun, nofun⟩
  have hvisible : ∀ e ∈ s.entries, isHidden e.1 = false :=
    List.forall_mem_cons.2 ⟨by decide, List.forall_mem_singleton.2 (by decide)⟩
  exact ⟨hwritable, hvisible, reads_back hwritable hvisible "later"⟩

end Store

end Cache

end CodeSurvey
