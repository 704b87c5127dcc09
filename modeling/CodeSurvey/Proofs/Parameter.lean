import CodeSurvey.Proofs.Parameter.Bracket
import CodeSurvey.Proofs.Text.LineIndex
import CodeSurvey.Proofs.Text.Spacing
import CodeSurvey.Proofs.Text.Word

/-!
# Written parameters

A parameter is written as its name, then its type behind a colon and its default value behind an
equals sign if there are such. Parameters with a comma and a space between them are read back.
-/
namespace CodeSurvey.Parameter

variable {angle : Bool}

/-! ### Parts between commas -/

theorem joined_cons_cons (part next : List Char) (parts : List (List Char)) :
    Text.joined ", " (part :: next :: parts) =
      part ++ ',' :: ' ' :: Text.joined ", " (next :: parts) := by
  simp [Text.joined, List.intercalate]

theorem joined_singleton (part : List Char) : Text.joined ", " [part] = part := by
  simp [Text.joined, List.intercalate]

/-- What follows the last comma starts with the space that stands after it. -/
theorem piecesAt_joined {part : List Char} {parts : List (List Char)}
    (h : ∀ p ∈ part :: parts, Scans ',' angle (fun _ => False) p) (before lead : List Char)
    {prior : Option Char} (hprior : ∀ c, isArrowTip prior c = false) :
    piecesAt (before ++ (lead ++ Text.joined ", " (part :: parts))) (Text.size before)
        ((marksFrom ',' angle (Text.size before + Text.size lead) 0 prior
          (Text.joined ", " (part :: parts))).map Mark.offset) =
      (lead ++ part) :: parts.map (' ' :: ·) := by
  induction parts generalizing part before lead prior with
  | nil =>
    have hmarks := (h part (by simp)).skip (Text.size before + Text.size lead) [] hprior
    rw [List.append_nil] at hmarks
    rw [joined_singleton, hmarks, marksFrom, List.map_nil, piecesAt, Text.dropBytes_append]
    rfl
  | cons next parts ih =>
    obtain ⟨hpart, hparts⟩ := List.forall_mem_cons.1 h
    have hmarks : marksFrom ',' angle (Text.size before + Text.size lead) 0 prior
          (Text.joined ", " (part :: next :: parts)) =
        ⟨Text.size before + Text.size lead + Text.size part, part.getLast?.or prior, some ' '⟩ ::
          marksFrom ',' angle (Text.size before + Text.size lead + Text.size part + 1 + 1) 0
            (some ' ')
            (Text.joined ", " (next :: parts)) := by
      rw [joined_cons_cons, hpart.skip _ _ hprior, marksFrom_cons (by decide),
        marksFrom_cons (by decide), Plain.nesting (by decide), Plain.nesting (by decide)]
      rfl
    have hrest := ih hparts (before ++ (lead ++ part) ++ [',']) [' '] isArrowTip_space
    have hsize : Text.size (before ++ (lead ++ part) ++ [',']) =
        Text.size before + Text.size lead + Text.size part + 1 := by
      have hcomma : Text.size [','] = 1 := rfl
      rw [Text.size_append, Text.size_append, Text.size_append, hcomma]
      omega
    have hspace : Text.size [' '] = 1 := rfl
    have htext : before ++ (lead ++ Text.joined ", " (part :: next :: parts)) =
        before ++ (lead ++ part) ++ [','] ++ ([' '] ++ Text.joined ", " (next :: parts)) := by
      simp [joined_cons_cons]
    rw [hsize, hspace, ← htext] at hrest
    have hslice : Text.slice (before ++ (lead ++ Text.joined ", " (part :: next :: parts)))
        (Text.size before)
        (Text.size before + Text.size lead + Text.size part) = lead ++ part := by
      rw [joined_cons_cons, ← List.append_assoc lead]
      exact Text.slice_append rfl (by rw [Text.size_append, Nat.add_assoc])
    rw [hmarks, List.map_cons, piecesAt, hrest, List.map_cons, hslice]
    rfl

/-- Parts without a comma outside brackets are read one by one. -/
theorem parseMasked_joined {parts : List (List Char)}
    (h : ∀ p ∈ parts, Scans ',' angle (fun _ => False) p) :
    parseMasked angle (Text.joined ", " parts) (Text.joined ", " parts) =
      parts.filterMap fun part => parse? angle (Text.normalizeBlanks part) := by
  cases parts with
  | nil => rfl
  | cons part parts =>
    have hpieces : piecesAt (Text.joined ", " (part :: parts)) 0
        ((marks ',' angle (Text.joined ", " (part :: parts))).map Mark.offset) =
          part :: parts.map (' ' :: ·) :=
      piecesAt_joined h [] [] isArrowTip_none
    have hspace : (fun p => parse? angle (Text.normalizeBlanks p)) ∘ (' ' :: ·) =
        fun p => parse? angle (Text.normalizeBlanks p) := by
      funext p
      rw [Function.comp_apply, Text.normalizeBlanks_space]
    rw [parseMasked, hpieces, List.filterMap_cons, List.filterMap_cons, List.filterMap_map, hspace]

theorem parseMasked_joined_map {α : Type} {text : α → List Char} {parameter : α → Parameter}
    (xs : List α) (hscans : ∀ x, Scans ',' angle (fun _ => False) (text x))
    (hparse : ∀ x, parse? angle (Text.normalizeBlanks (text x)) = some (parameter x)) :
    parseMasked angle (Text.joined ", " (xs.map text)) (Text.joined ", " (xs.map text)) =
      xs.map parameter := by
  have hsome : (fun part => parse? angle (Text.normalizeBlanks part)) ∘ text = some ∘
      parameter := by
    funext x
    rw [Function.comp_apply, Function.comp_apply, hparse]
  rw [parseMasked_joined (List.forall_mem_map.2 fun x _ => hscans x), List.filterMap_map, hsome,
    List.filterMap_eq_map]

/-! ### Names, types and default values -/

def isNameChar (c : Char) : Bool :=
  Text.isWord c || c == '$' || c == '*'

structure Name where
  chars : List Char
  ne_nil : chars ≠ []
  isNameChar : ∀ c ∈ chars, isNameChar c = true

/-- A type or a default value. -/
structure Clause (angle : Bool) where
  chars : List Char
  ne_nil : chars ≠ []
  spaced : Text.Spaced chars
  balanced : Balanced angle chars
  comma : ∀ i, ¬ OutsideAt angle chars i ','

/-- A parameter to be written. Outside brackets an equals sign in the type belongs to an arrow. -/
structure Item (angle : Bool) where
  name : Name
  typeName : Option (Clause angle)
  value : Option (Clause angle)
  arrow : ∀ t ∈ typeName, ∀ i, OutsideAt angle t.chars i '=' → t.chars[i + 1]? = some '>'

def Clause.string (clause : Clause angle) : String :=
  String.ofList clause.chars

namespace Item

def parameter (item : Item angle) : Parameter :=
  ⟨String.ofList item.name.chars, item.typeName.map Clause.string, item.value.map Clause.string⟩

/-- The name and the type. -/
def front (item : Item angle) : List Char :=
  item.name.chars ++ item.typeName.elim [] fun t => ':' :: ' ' :: t.chars

def chars (item : Item angle) : List Char :=
  item.front ++ item.value.elim [] fun v => ' ' :: '=' :: ' ' :: v.chars

end Item

def write (items : List (Item angle)) : List Char :=
  Text.joined ", " (items.map Item.chars)

namespace Name

variable (name : Name)

theorem ne {c d : Char} (hc : c ∈ name.chars) (hd : Parameter.isNameChar d = false) : c ≠ d :=
  Text.ne_of_class (name.isNameChar c hc) hd

theorem isBlank {c : Char} (hc : c ∈ name.chars) : Text.isBlank c = false := by
  have h := name.isNameChar c hc
  rw [Parameter.isNameChar, Bool.or_eq_true, Bool.or_eq_true, beq_iff_eq, beq_iff_eq] at h
  rcases h with (hword | rfl) | rfl
  · exact Text.isBlank_of_isWord hword
  · rfl
  · rfl

theorem plain {c : Char} (hc : c ∈ name.chars) : Plain c := by
  have hnone : (brackets.all fun d => !Parameter.isNameChar d) = true := by decide
  intro hbracket
  have h := List.all_eq_true.1 hnone c hbracket
  rw [name.isNameChar c hc] at h
  cases h

theorem spaced : Text.Spaced name.chars :=
  Text.spaced_of_forall fun _ hc => name.isBlank hc

theorem spaced_colon : Text.Spaced (name.chars ++ [':']) :=
  Text.spaced_of_forall (List.forall_mem_append.2
    ⟨fun _ hc => name.isBlank hc, List.forall_mem_singleton.2 rfl⟩)

theorem scans {sep : Char} (hsep : Plain sep) (hname : Parameter.isNameChar sep = false) :
    Scans sep angle (fun _ => False) name.chars :=
  scans_of_forall (fun _ hc => name.plain hc) hsep fun hmem => name.ne hmem hname rfl

theorem scans_colon {sep : Char} (hsep : Plain sep) (hname : Parameter.isNameChar sep = false)
    (hcolon : sep ≠ ':') :
    Scans sep angle (fun _ => False) (name.chars ++ [':']) := by
  have hplain : ∀ c ∈ name.chars ++ [':'], Plain c :=
    List.forall_mem_append.2 ⟨fun _ hc => name.plain hc, List.forall_mem_singleton.2 (by decide)⟩
  refine scans_of_forall hplain hsep ?_
  rw [List.mem_append, List.mem_singleton, not_or]
  exact ⟨fun hmem => name.ne hmem hname rfl, hcolon⟩

end Name

namespace Item

variable (item : Item angle)

/-- The name and the type have what their parts have and what is kept when parts are put together
with a space. -/
theorem front_of_parts {P : List Char → Prop} (hname : P item.name.chars)
    (hcolon : P (item.name.chars ++ [':'])) (htype : ∀ t ∈ item.typeName, P t.chars)
    (happend : ∀ cs ds, cs ≠ [] → ds ≠ [] → P cs → P ds → P (cs ++ ' ' :: ds)) : P item.front := by
  rw [front]
  cases h : item.typeName with
  | none =>
    rw [Option.elim_none, List.append_nil]
    exact hname
  | some t =>
    rw [Option.elim_some, List.append_cons]
    exact happend _ _ (by simp) t.ne_nil hcolon (htype t h)

theorem front_ne_nil : item.front ≠ [] :=
  List.append_ne_nil_of_left_ne_nil item.name.ne_nil _

theorem chars_of_parts {P : List Char → Prop} (hfront : P item.front) (hequals : P ['='])
    (hvalue : ∀ v ∈ item.value, P v.chars)
    (happend : ∀ cs ds, cs ≠ [] → ds ≠ [] → P cs → P ds → P (cs ++ ' ' :: ds)) : P item.chars := by
  rw [chars]
  cases h : item.value with
  | none =>
    rw [Option.elim_none, List.append_nil]
    exact hfront
  | some v =>
    have hright := happend ['='] v.chars (by simp) v.ne_nil hequals (hvalue v h)
    exact happend _ _ item.front_ne_nil (by simp) hfront hright

theorem spaced_front : Text.Spaced item.front :=
  item.front_of_parts item.name.spaced item.name.spaced_colon (fun t _ => t.spaced)
    fun _ _ hcs hds h hd => h.append hd hcs hds

theorem spaced_chars : Text.Spaced item.chars :=
  item.chars_of_parts item.spaced_front (Text.spaced_of_forall (List.forall_mem_singleton.2 rfl))
    (fun v _ => v.spaced)
    fun _ _ hcs hds h hd => h.append hd hcs hds

theorem scans_comma : Scans ',' angle (fun _ => False) item.chars := by
  have happend : ∀ cs ds : List Char, cs ≠ [] → ds ≠ [] → Scans ',' angle (fun _ => False) cs →
      Scans ',' angle (fun _ => False) ds → Scans ',' angle (fun _ => False) (cs ++ ' ' :: ds) :=
    fun _ _ _ _ h hd => h.append hd (by decide) (by decide)
  have hclause : ∀ clause : Clause angle, Scans ',' angle (fun _ => False) clause.chars :=
    fun clause => clause.balanced.scans_of_forall_not (by decide) clause.comma
  have hequals : Scans ',' angle (fun _ => False) ['='] :=
    scans_of_forall (List.forall_mem_singleton.2 (by decide)) (by decide) (by decide)
  refine item.chars_of_parts ?_ hequals (fun v _ => hclause v) happend
  exact item.front_of_parts (item.name.scans (by decide) (by decide))
    (item.name.scans_colon (by decide) (by decide) (by decide)) (fun t _ => hclause t) happend

/-- The equals signs in front of the default value belong to arrows. -/
theorem scans_equals : Scans '=' angle (fun m => m.next = some '>') item.front := by
  have hnever : ∀ cs, Scans '=' angle (fun _ => False) cs →
    Scans '=' angle (fun m => m.next = some '>') cs :=
    fun _ h => h.mono fun _ => False.elim
  refine item.front_of_parts (hnever _ (item.name.scans (by decide) (by decide)))
    (hnever _ (item.name.scans_colon (by decide) (by decide) (by decide))) ?_
    fun _ _ _ _ h hd => h.append hd (by decide) (by decide)
  intro t ht
  refine (t.balanced.scans (by decide)).mono ?_
  rintro m ⟨i, hi, hnext⟩
  exact hnext '>' (item.arrow t ht i hi)

end Item

/-! ### Reading back -/

theorem cutAt_some {before after : List Char} {sep : Char} (hsep : sep.utf8Size = 1) {m : Mark}
    (hm : m.offset = Text.size before) :
    cutAt (before ++ sep :: after) (some m) = (Text.trim before, Text.trim after) := by
  have hdrop : Text.dropBytes (Text.size before + 1) (before ++ sep :: after) = after := by
    have hsize : Text.size before + 1 = Text.size (before ++ [sep]) := by simp [hsep]
    have htext : before ++ sep :: after = (before ++ [sep]) ++ after := List.append_cons _ _ _
    rw [hsize, htext, Text.dropBytes_append]
  rw [cutAt, hm, Text.takeBytes_append, hdrop]

namespace Item

variable (item : Item angle)

theorem cutAt_chars : cutAt item.chars ((marks '=' angle item.chars).find? Mark.isAssignment) =
    (item.front, item.value.elim [] Clause.chars) := by
  obtain ⟨ms, hmarks, hms⟩ := item.scans_equals 0 none
    (item.value.elim [] fun v => ' ' :: '=' :: ' ' :: v.chars)
    isArrowTip_none
  have harrows : ms.find? Mark.isAssignment = none := by
    refine List.find?_eq_none.2 fun m hm => ?_
    simp [Mark.isAssignment, hms m hm]
  rw [marks, chars, hmarks, List.find?_append, harrows, Option.none_or, Nat.zero_add]
  cases item.value with
  | none =>
    rw [Option.elim_none, List.append_nil]
    rfl
  | some v =>
    have hmark : ((marksFrom '=' angle (Text.size item.front) 0 (item.front.getLast?.or none)
        (' ' :: '=' :: ' ' :: v.chars)).find? Mark.isAssignment) =
          some ⟨Text.size item.front + 1, some ' ', some ' '⟩ := by
      rw [marksFrom_cons (by decide), marksFrom_cons (by decide), Plain.nesting (by decide),
        Plain.nesting (by decide)]
      rfl
    have hsize : Text.size item.front + 1 = Text.size (item.front ++ [' ']) := by
      simp [Char.utf8Size]
    rw [Option.elim_some, Option.elim_some, hmark, List.append_cons, cutAt_some rfl hsize,
      item.spaced_front.trim_append_space item.front_ne_nil, v.spaced.trim_space]

theorem cutAt_front : cutAt item.front (marks ':' angle item.front).head? =
    (item.name.chars, item.typeName.elim [] Clause.chars) := by
  have hname : Scans ':' angle (fun _ => False) item.name.chars :=
    item.name.scans (by decide) (by decide)
  rw [marks, front, hname.skip 0 _ isArrowTip_none, Nat.zero_add]
  cases item.typeName with
  | none =>
    rw [Option.elim_none, List.append_nil]
    rfl
  | some t =>
    rw [Option.elim_some, Option.elim_some, marksFrom_cons (by decide), if_pos ⟨rfl, rfl⟩,
      List.singleton_append, List.head?_cons, cutAt_some rfl rfl, item.name.spaced.trim,
      t.spaced.trim_space]

theorem nonEmpty_elim (clause : Option (Clause angle)) :
    nonEmpty (clause.elim [] Clause.chars) = clause.map Clause.string := by
  cases clause with
  | none => rfl
  | some c => exact if_neg (by simpa using c.ne_nil)

theorem parse?_chars : parse? angle (Text.normalizeBlanks item.chars) = some item.parameter := by
  have hname : Text.trim (Text.dropEndWhile (· == '?') item.name.chars) = item.name.chars := by
    rw [Text.dropEndWhile_of_last, item.name.spaced.trim]
    intro c hc
    exact beq_false_of_ne (item.name.ne (List.mem_of_mem_getLast? hc) (by decide))
  have hne : item.name.chars.isEmpty = false := List.isEmpty_eq_false_iff.2 item.name.ne_nil
  rw [item.spaced_chars.normalizeBlanks, parse?, item.spaced_chars.trim]
  simp only [item.cutAt_chars, item.cutAt_front, hname, hne, nonEmpty_elim]
  rfl

end Item

/-- Parameters are read back from the list in which they are written, whatever their types and
default values hold in brackets. -/
theorem parseList_write (angle : Bool) (items : List (Item angle)) :
    parseList angle (write items) = items.map Item.parameter :=
  parseMasked_joined_map items Item.scans_comma Item.parse?_chars

-- commas inside brackets, an arrow in the type and one in the default value
example : ∃ item : Item true, item.chars = "f: Map<K, (A, B)> => C = (a, b) => a".toList ∧
    item.parameter = ⟨"f", some "Map<K, (A, B)> => C", some "(a, b) => a"⟩ := by
  have htype : ∀ i, ¬ OutsideAt true "Map<K, (A, B)> => C".toList i ',' :=
    forall_outsideAt_iff.2 (by decide)
  have hvalue : ∀ i, ¬ OutsideAt true "(a, b) => a".toList i ',' :=
    forall_outsideAt_iff.2 (by decide)
  have harrow : ∀ i, OutsideAt true "Map<K, (A, B)> => C".toList i '=' →
      "Map<K, (A, B)> => C".toList[i + 1]? = some '>' :=
    forall_outsideAt_iff.2 (by decide)
  exact ⟨⟨⟨['f'], by decide, List.forall_mem_singleton.2 rfl⟩,
    some ⟨"Map<K, (A, B)> => C".toList, by decide, by decide, by decide, htype⟩,
    some ⟨"(a, b) => a".toList, by decide, by decide, by decide, hvalue⟩,
    fun t ht => Option.some.inj ht ▸ harrow⟩, rfl, rfl⟩

/-! ### Plain words -/

/-- Words with a comma and a space between them. -/
def written (ws : List Text.Word) : List Char :=
  Text.joined ", " (ws.map Text.Word.chars)

theorem forall_mem_written {P : Char → Prop} (hcomma : P ',') (hspace : P ' ')
    (hword : ∀ c, Text.isWord c = true → P c) (ws : List Text.Word) : ∀ c ∈ written ws, P c := by
  rw [written]
  induction ws with
  | nil => simp [Text.joined, List.intercalate]
  | cons w ws ih =>
    cases ws with
    | nil =>
      rw [List.map_singleton, joined_singleton]
      exact fun c hc => hword c (w.isWord c hc)
    | cons v ws =>
      intro c hc
      rw [List.map_cons, List.map_cons, joined_cons_cons, List.mem_append, List.mem_cons,
        List.mem_cons] at hc
      rcases hc with hc | rfl | rfl | hc
      · exact hword c (w.isWord c hc)
      · exact hcomma
      · exact hspace
      · exact ih c hc

/-- A word is written without a type and without a default value. -/
def Item.ofWord (w : Text.Word) : Item false where
  name := ⟨w.chars, w.ne_nil, fun c hc => by simp [isNameChar, w.isWord c hc]⟩
  typeName := none
  value := none
  arrow := by simp

theorem Item.chars_ofWord (w : Text.Word) : (Item.ofWord w).chars = w.chars := by
  simp [Item.chars, Item.front, Item.ofWord]

/-- Parameters that are words are read back. -/
theorem map_name_parseMasked_written (ws : List Text.Word) :
    (parseMasked false (written ws) (written ws)).map Parameter.name = ws.map Text.Word.string := by
  have hscans : ∀ w : Text.Word, Scans ',' false (fun _ => False) w.chars :=
    fun w => Item.chars_ofWord w ▸ (Item.ofWord w).scans_comma
  have hparse : ∀ w : Text.Word, parse? false (Text.normalizeBlanks w.chars) =
    some (named w.string) :=
    fun w => Item.chars_ofWord w ▸ (Item.ofWord w).parse?_chars
  rw [written, parseMasked_joined_map ws hscans hparse, List.map_map]
  rfl

end CodeSurvey.Parameter
