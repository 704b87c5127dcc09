import CodeSurvey.Proofs.Json.Token

/-!
# Documents read back

A document of texts, truth values and natural numbers is read back from its compact form as it was.
The induction is over the document; its fuel is any number above the length of the text.
-/
namespace CodeSurvey.Json

/-- The documents whose compact form names them exactly. -/
inductive Exact : Json → Prop
  | null : Exact .null
  | bool (b : Bool) : Exact (.bool b)
  | nat {n : Nat} (h : n < UInt64.size) : Exact (.ofNat n)
  | str (s : String) : Exact (.str s)
  | arr {items : List Json} (h : ∀ j ∈ items, Exact j) : Exact (.arr items)
  | obj {members : List (String × Json)} (h : ∀ m ∈ members, Exact m.2) : Exact (.obj members)

/-! ### The parts of a compact form -/

theorem compactItems_eq_map (items : List Json) : compactItems items = items.map compact := by
  induction items with
  | nil => rfl
  | cons j items ih => rw [compactItems, ih, List.map_cons]

theorem compactMembers_eq_map (members : List (String × Json)) :
    compactMembers members = members.map fun m => quoted m.1 ++ ":" ++ compact m.2 := by
  induction members with
  | nil => rfl
  | cons m members ih => rw [compactMembers, ih, List.map_cons]

/-- Parts with a comma between each two. -/
def joined (parts : List (List Char)) : List Char :=
  [','].intercalate parts

theorem joined_cons_cons (p q : List Char) (parts : List (List Char)) :
    joined (p :: q :: parts) = p ++ ',' :: joined (q :: parts) := by
  simp [joined, List.intercalate]

theorem joined_singleton (p : List Char) : joined [p] = p := by
  simp [joined, List.intercalate]

theorem length_le_joined {parts : List (List Char)} {p : List Char} (h : p ∈ parts) :
    p.length ≤ (joined parts).length := by
  induction parts with
  | nil => cases h
  | cons q parts ih =>
    cases parts with
    | nil => simp_all [joined_singleton]
    | cons r parts =>
      rw [joined_cons_cons, List.length_append, List.length_cons]
      rcases List.mem_cons.1 h with rfl | h
      · omega
      · have := ih h
        omega

theorem length_parts_le_joined (parts : List (List Char)) :
    parts.length ≤ (joined parts).length + 1 := by
  induction parts with
  | nil => simp
  | cons q parts ih =>
    cases parts with
    | nil => simp
    | cons r parts =>
      rw [joined_cons_cons]
      simp only [List.length_append, List.length_cons] at ih ⊢
      omega

theorem toList_compact_arr (items : List Json) :
    (compact (.arr items)).toList = '[' :: joined (items.map fun j => j.compact.toList) ++
    [']'] := by
  simp [compact, compactItems_eq_map, joined, String.toList_intercalate, Function.comp_def]

/-- A member as it is written. -/
def memberText (m : String × Json) : List Char :=
  (quoted m.1 ++ ":" ++ m.2.compact).toList

theorem memberText_eq (m : String × Json) :
    memberText m = '"' :: (m.1.toList.flatMap escape ++ '"' :: ':' :: m.2.compact.toList) := by
  simp [memberText, toList_quoted]

theorem toList_compact_obj (members : List (String × Json)) :
    (compact (.obj members)).toList = '\x7b' :: joined (members.map memberText) ++ ['\x7d'] := by
  have htext : memberText = fun m => (quoted m.1 ++ ":" ++ m.2.compact).toList := rfl
  simp [compact, compactMembers_eq_map, joined, String.toList_intercalate, Function.comp_def, htext]

/-! ### Reading the parts -/

theorem skipBlanks_cons {c : Char} (h : isJsonBlank c = false) (cs : List Char) :
    skipBlanks (c :: cs) = c :: cs := by
  simp [skipBlanks, h]

/-- `read` gives back `value` from `text`, whatever follows that ends a number. -/
def ReadsBack {α : Type} (read : List Char → Option (α × List Char)) (text : List Char)
    (value : α) : Prop :=
  ∀ rest, Delimited rest → read (text ++ rest) = some (value, rest)

theorem readItems?_joined {α β : Type} {read : List Char → Option (α × List Char)} (close : Char)
    (hblank : isJsonBlank close = false) (hcomma : close ≠ ',')
    (hclose : ∀ rest, Delimited (close :: rest)) {text : β → List Char} (value : β → α)
    {parts : List β} (hne : parts ≠ []) (hread : ∀ p ∈ parts, ReadsBack read (text p) (value p))
    {n : Nat} (hn : parts.length ≤ n) (rest : List Char) :
    readItems? read close n (joined (parts.map text) ++ close :: rest) =
      some (parts.map value, rest) := by
  induction parts generalizing n with
  | nil => exact absurd rfl hne
  | cons p parts ih =>
    obtain ⟨n, rfl⟩ : ∃ k, n = k + 1 := ⟨n - 1, by simp at hn; omega⟩
    have hp := hread p (by simp)
    cases parts with
    | nil =>
      rw [List.map_singleton, joined_singleton, readItems?, hp _ (hclose rest)]
      simp [skipBlanks_cons hblank]
    | cons q parts =>
      have htail := ih (by simp) (fun r hr => hread r (List.mem_cons_of_mem p hr))
        (by simpa using hn)
      have hsep : Delimited (',' :: (joined ((q :: parts).map text) ++ close :: rest)) :=
        delimited_cons (by decide)
      rw [List.map_cons, List.map_cons, joined_cons_cons, List.append_assoc, List.cons_append,
        ← List.map_cons, readItems?, hp _ hsep]
      simp only [skipBlanks_cons (c := ',') (by decide), Option.bind_eq_bind, Option.bind_some,
        htail]
      rfl

theorem readMember?_memberText {read : List Char → Option (Json × List Char)} {m : String × Json}
    (hread : ReadsBack read m.2.compact.toList m.2) :
    ReadsBack (readMember? read) (memberText m) (some m.1, m.2) := by
  intro rest hrest
  have hquote : isJsonBlank '"' = false := by decide
  have hcolon : isJsonBlank ':' = false := by decide
  rw [memberText_eq, readMember?]
  simp only [List.cons_append, List.append_assoc, skipBlanks_cons hquote, readText?_escaped]
  simp [skipBlanks_cons hcolon, hread rest hrest]

theorem ofMembers_map (members : List (String × Json)) :
    ofMembers (members.map fun m => (some m.1, m.2)) = .obj members := by
  have h : (members.map fun m => (some m.1, m.2)).mapM
      (fun (m : Option String × Json) => m.1.map fun name => (name, m.2)) = some members := by
    induction members with
    | nil => rfl
    | cons m members ih => simp [ih]
  rw [ofMembers, h]

/-! ### Values -/

theorem toList_compact_ofNat (n : Nat) : (ofNat n).compact.toList = Nat.toDigits 10 n := by
  rw [← Nat.toList_repr]
  rfl

theorem isJsonBlank_of_isDigit {c : Char} (h : c.isDigit = true) : isJsonBlank c = false := by
  rw [Bool.eq_false_iff]
  intro hblank
  simp only [isJsonBlank, Bool.or_eq_true, beq_iff_eq] at hblank
  rcases hblank with ((rfl | rfl) | rfl) | rfl <;> exact absurd h (by decide)

theorem exists_toDigits_cons (n : Nat) :
    ∃ d ds, Nat.toDigits 10 n = d :: ds ∧ d.isDigit = true := by
  obtain ⟨d, ds, hd⟩ := List.exists_cons_of_ne_nil (Nat.toDigits_ne_nil (n := n) (b := 10))
  have hmem : d ∈ Nat.toDigits 10 n := by simp [hd]
  exact ⟨d, ds, hd, Nat.isDigit_of_mem_toDigits (by decide) (by decide) hmem⟩

/-- How the compact form of an exact document starts. -/
theorem Exact.exists_compact_cons {j : Json} (h : Exact j) :
    ∃ c cs, j.compact.toList = c :: cs ∧ isJsonBlank c = false ∧ c ≠ ']' := by
  cases h with
  | null => exact ⟨'n', _, rfl, by decide, by decide⟩
  | bool b => cases b <;> exact ⟨_, _, rfl, by decide, by decide⟩
  | @nat n h =>
    obtain ⟨d, ds, hd, hdigit⟩ := exists_toDigits_cons n
    refine ⟨d, ds, ?_, isJsonBlank_of_isDigit hdigit, ?_⟩
    · rw [toList_compact_ofNat, hd]
    · rintro rfl
      exact absurd hdigit (by decide)
  | str s => exact ⟨'"', _, toList_quoted s, by decide, by decide⟩
  | arr h => exact ⟨'[', _, toList_compact_arr _, by decide, by decide⟩
  | obj h => exact ⟨'\x7b', _, toList_compact_obj _, by decide, by decide⟩

theorem readValue?_str (n : Nat) (s : String) :
    ReadsBack (readValue? (n + 1)) (compact (.str s)).toList (.str s) := by
  intro rest hrest
  have hquote : isJsonBlank '"' = false := by decide
  rw [compact, toList_quoted, readValue?]
  simp [skipBlanks_cons hquote, readText?_escaped]

theorem readValue?_ofNat (n : Nat) {k : Nat} (hk : k < UInt64.size) :
    ReadsBack (readValue? (n + 1)) (ofNat k).compact.toList (.ofNat k) := by
  intro rest hrest
  obtain ⟨d, ds, hd, hdigit⟩ := exists_toDigits_cons k
  have hother : ∀ {c : Char} {tail : List Char}, c.isDigit = false →
      Nat.toDigits 10 k ++ rest ≠ c :: tail := by
    intro c tail hc h
    rw [hd, List.cons_append, List.cons.injEq] at h
    rw [h.1, hc] at hdigit
    cases hdigit
  have hskip : skipBlanks (Nat.toDigits 10 k ++ rest) = Nat.toDigits 10 k ++ rest := by
    rw [hd, List.cons_append, skipBlanks_cons (isJsonBlank_of_isDigit hdigit)]
  rw [toList_compact_ofNat, readValue?, hskip]
  split
  case h_8 => exact readNumber?_toDigits hk hrest
  case h_1 h => simp [hd] at h
  all_goals
    rename_i h
    exact absurd h (hother (by decide))

theorem joined_cons_eq_append (p : List Char) (parts : List (List Char)) :
    ∃ more, joined (p :: parts) = p ++ more := by
  cases parts with
  | nil => exact ⟨[], by rw [joined_singleton, List.append_nil]⟩
  | cons q parts => exact ⟨_, joined_cons_cons p q parts⟩

theorem readValue?_bracket (n : Nat) {c : Char} (hblank : isJsonBlank c = false) (hne : c ≠ ']')
    (cs : List Char) :
    readValue? (n + 1) ('[' :: c :: cs) =
      (readItems? (readValue? n) ']' n (c :: cs)).map fun (xs, cs) => (.arr xs, cs) := by
  rw [readValue?, skipBlanks_cons (by decide)]
  simp [skipBlanks_cons hblank, hne]

theorem readValue?_brace (n : Nat) {c : Char} (hblank : isJsonBlank c = false) (hne : c ≠ '\x7d')
    (cs : List Char) :
    readValue? (n + 1) ('\x7b' :: c :: cs) =
      (readItems? (readMember? (readValue? n)) '\x7d' n (c :: cs)).map fun (ms, cs) =>
        (ofMembers ms, cs) := by
  rw [readValue?, skipBlanks_cons (by decide)]
  simp [skipBlanks_cons hblank, hne]

theorem readValue?_arr {n : Nat} {items : List Json} (hexact : ∀ j ∈ items, Exact j)
    (hread : ∀ j ∈ items, ReadsBack (readValue? n) j.compact.toList j) (hn : items.length ≤ n) :
    ReadsBack (readValue? (n + 1)) (compact (.arr items)).toList (.arr items) := by
  intro rest hrest
  rw [toList_compact_arr, List.cons_append, List.cons_append, List.append_assoc,
    List.singleton_append]
  cases items with
  | nil => rfl
  | cons j items =>
    have hitems := readItems?_joined ']' (by decide) (by decide)
      (fun rest => delimited_cons (by decide)) id (List.cons_ne_nil j items) hread hn rest
    -- the first item keeps the array from being taken for an empty one
    obtain ⟨c, cs, hj, hblank, hne⟩ := (hexact j (by simp)).exists_compact_cons
    obtain ⟨more, hmore⟩ := joined_cons_eq_append j.compact.toList
      (items.map fun j => j.compact.toList)
    rw [List.map_cons, hmore, hj, List.cons_append, List.cons_append] at hitems ⊢
    rw [readValue?_bracket n hblank hne, hitems, List.map_id]
    rfl

theorem readValue?_obj {n : Nat} {members : List (String × Json)}
    (hread : ∀ m ∈ members, ReadsBack (readValue? n) m.2.compact.toList m.2)
    (hn : members.length ≤ n) :
    ReadsBack (readValue? (n + 1)) (compact (.obj members)).toList (.obj members) := by
  intro rest hrest
  rw [toList_compact_obj, List.cons_append, List.cons_append, List.append_assoc,
    List.singleton_append]
  cases members with
  | nil => rfl
  | cons m members =>
    have hitems := readItems?_joined '\x7d' (by decide) (by decide)
      (fun rest => delimited_cons (by decide)) _ (List.cons_ne_nil m members)
      (fun m hm => readMember?_memberText (hread m hm)) hn rest
    obtain ⟨more, hmore⟩ := joined_cons_eq_append (memberText m) (members.map memberText)
    rw [List.map_cons, hmore, memberText_eq, List.cons_append, List.cons_append] at hitems ⊢
    rw [readValue?_brace n (by decide) (by decide), hitems, ← ofMembers_map (m :: members)]
    rfl

theorem Exact.readsBack {j : Json} (h : Exact j) {n : Nat} (hn : j.compact.toList.length < n) :
    ReadsBack (readValue? n) j.compact.toList j := by
  induction h generalizing n with
  | null =>
    obtain ⟨n, rfl⟩ : ∃ k, n = k + 1 := ⟨n - 1, by omega⟩
    intro rest _
    rfl
  | bool b =>
    obtain ⟨n, rfl⟩ : ∃ k, n = k + 1 := ⟨n - 1, by omega⟩
    intro rest _
    cases b <;> rfl
  | nat hk =>
    obtain ⟨n, rfl⟩ : ∃ k, n = k + 1 := ⟨n - 1, by omega⟩
    exact readValue?_ofNat n hk
  | str s =>
    obtain ⟨n, rfl⟩ : ∃ k, n = k + 1 := ⟨n - 1, by omega⟩
    exact readValue?_str n s
  | @arr items hexact ih =>
    obtain ⟨n, rfl⟩ : ∃ k, n = k + 1 := ⟨n - 1, by omega⟩
    rw [toList_compact_arr] at hn
    simp only [List.length_cons, List.length_append, List.length_nil] at hn
    refine readValue?_arr hexact (fun j hj => ih j hj ?_) ?_
    · have := length_le_joined (List.mem_map_of_mem (f := fun j : Json => j.compact.toList) hj)
      omega
    · have := length_parts_le_joined (items.map fun j => j.compact.toList)
      rw [List.length_map] at this
      omega
  | @obj members hexact ih =>
    obtain ⟨n, rfl⟩ : ∃ k, n = k + 1 := ⟨n - 1, by omega⟩
    rw [toList_compact_obj] at hn
    simp only [List.length_cons, List.length_append, List.length_nil] at hn
    refine readValue?_obj (fun m hm => ih m hm ?_) ?_
    · have := length_le_joined (List.mem_map_of_mem (f := memberText) hm)
      rw [memberText_eq] at this
      simp only [List.length_cons, List.length_append] at this
      omega
    · have := length_parts_le_joined (members.map memberText)
      rw [List.length_map] at this
      omega

theorem Exact.parse?_compact {j : Json} (h : Exact j) : parse? j.compact = some j := by
  have hread := h.readsBack (Nat.lt_succ_self _) [] delimited_nil
  rw [List.append_nil] at hread
  simp [parse?, hread, skipBlanks]

end CodeSurvey.Json
