import CodeSurvey.Proofs.Text.Line
import CodeSurvey.Proofs.Text.Utf8

/-!
# Bytes and offsets

The bytes of a text are those of its characters in order. An offset is the place of a character if a
part of the text in front of it has that many bytes. A character of ASCII is one byte, which stands
in no other character.
-/
namespace CodeSurvey.Text

@[simp] theorem size_nil : size [] = 0 :=
  rfl

@[simp] theorem size_cons (c : Char) (cs : List Char) : size (c :: cs) = c.utf8Size + size cs :=
  rfl

@[simp] theorem size_append (cs ds : List Char) : size (cs ++ ds) = size cs + size ds := by
  induction cs with
  | nil => simp
  | cons c cs ih => rw [List.cons_append, size_cons, size_cons, ih, Nat.add_assoc]

/-! ### Bytes -/

theorem Utf8.encode_eq_flatMap (cs : List Char) : encode cs = cs.flatMap String.utf8EncodeChar := by
  rw [encode, toList_toUTF8, String.toList_ofList]

@[simp] theorem Utf8.encode_nil : encode [] = [] := by
  rw [encode_eq_flatMap, List.flatMap_nil]

theorem Utf8.encode_cons (c : Char) (cs : List Char) :
    encode (c :: cs) = String.utf8EncodeChar c ++ encode cs := by
  rw [encode_eq_flatMap, encode_eq_flatMap, List.flatMap_cons]

theorem Utf8.encode_append (cs ds : List Char) : encode (cs ++ ds) = encode cs ++ encode ds := by
  rw [encode_eq_flatMap, encode_eq_flatMap, encode_eq_flatMap, List.flatMap_append]

theorem Utf8.length_encode (cs : List Char) : (encode cs).length = size cs := by
  induction cs with
  | nil => simp
  | cons c cs ih =>
    rw [encode_cons, List.length_append, ih, String.length_utf8EncodeChar, size_cons]

theorem Utf8.encode_spaces (n : Nat) : encode (List.replicate n ' ') = List.replicate n 0x20 := by
  induction n with
  | zero => exact encode_nil
  | succ n ih =>
    rw [List.replicate_succ, encode_cons, ih, List.replicate_succ]
    rfl

/-- The bytes of a character of several bytes lie above ASCII. -/
theorem Utf8.ascii_not_mem {a c : Char} (ha : a.toNat < 0x80) (hc : c ≠ a) :
    a.toUInt8 ∉ String.utf8EncodeChar c := by
  have hval : c.val.toNat ≠ a.val.toNat := fun h => hc (Char.toNat_inj.1 h)
  have hascii : a.val.toNat < 0x80 := ha
  have hbyte : a.toUInt8.toNat = a.val.toNat := Nat.mod_eq_of_lt (Nat.lt_trans ha (by decide))
  simp only [String.utf8EncodeChar]
  generalize c.val.toNat = v at hval
  split_ifs
  all_goals
    simp only [List.mem_cons, List.not_mem_nil, or_false, ← UInt8.toNat_inj, UInt8.toNat_ofNat',
      hbyte]
    omega

theorem Utf8.newline_not_mem {c : Char} (hc : c ≠ '\n') : 0x0A ∉ String.utf8EncodeChar c :=
  ascii_not_mem (by decide) hc

theorem Utf8.encodeChar_of_ascii {a : Char} (ha : a.toNat < 0x80) :
    String.utf8EncodeChar a = [a.toUInt8] := by
  have hle : a.val.toNat ≤ 0x7f := Nat.le_of_lt_succ ha
  simp only [String.utf8EncodeChar, hle, if_true]
  rfl

/-! ### Offsets -/

theorem dropBytes?_append (before rest : List Char) :
    dropBytes? (size before) (before ++ rest) = some rest := by
  induction before with
  | nil => cases rest <;> rfl
  | cons c before ih =>
    have hpos := c.utf8Size_pos
    rw [List.cons_append, size_cons, dropBytes?, if_pos (Nat.le_add_right _ _),
      Nat.add_sub_cancel_left, ih]
    omega

/-- A text can be cut exactly where the part in front has that many bytes. -/
theorem dropBytes?_eq_some_iff {n : Nat} {cs rest : List Char} :
    dropBytes? n cs = some rest ↔ ∃ before, cs = before ++ rest ∧ size before = n := by
  constructor
  · intro h
    fun_induction dropBytes? n cs with
    | case1 cs => exact ⟨[], by simpa using h, rfl⟩
    | case2 n => simp at h
    | case3 n c cs hn hle ih =>
      obtain ⟨before, rfl, hsize⟩ := ih h
      refine ⟨c :: before, rfl, ?_⟩
      rw [size_cons, hsize]
      omega
    | case4 => simp at h
  · rintro ⟨before, rfl, rfl⟩
    exact dropBytes?_append before rest

/-- A byte of ASCII is a character of its own. -/
theorem Utf8.getElem?_encode_ascii_iff {a : Char} (ha : a.toNat < 0x80) {cs : List Char} {n : Nat} :
    (encode cs)[n]? = some a.toUInt8 ↔ ∃ before rest, cs = before ++ a :: rest ∧
    size before = n := by
  constructor
  · intro h
    induction cs generalizing n with
    | nil => simp at h
    | cons c cs ih =>
      have hsize := String.length_utf8EncodeChar c
      rw [encode_cons] at h
      by_cases hn : n < c.utf8Size
      · rw [List.getElem?_append_left (by omega)] at h
        obtain rfl : c = a := Classical.byContradiction fun hc => ascii_not_mem ha hc
          (List.mem_of_getElem? h)
        rw [encodeChar_of_ascii ha, List.length_singleton] at hsize
        exact ⟨[], cs, rfl, by rw [size_nil]; omega⟩
      · rw [List.getElem?_append_right (by omega), hsize] at h
        obtain ⟨before, rest, rfl, hbefore⟩ := ih h
        refine ⟨c :: before, rest, rfl, ?_⟩
        rw [size_cons, hbefore]
        omega
  · rintro ⟨before, rest, rfl, rfl⟩
    rw [encode_append, encode_cons, encodeChar_of_ascii ha, ← length_encode,
      List.getElem?_append_right (Nat.le_refl _), Nat.sub_self]
    rfl

end CodeSurvey.Text
