import CodeSurvey.Proofs.Text.Cut

/-!
# Lines and pieces

A text can be cut at its line feeds, and the line feeds in front of an offset can be counted. The
index of the lines, which is searched by offset, gives the same lines: they start where the pieces
start, and an offset lies on the line that starts last among those that do not start behind it.
-/
namespace CodeSurvey.Text

/-- The line feeds of a text can be counted in its bytes. -/
theorem Utf8.count_encode (cs : List Char) : (encode cs).count 0x0A = cs.count '\n' := by
  induction cs with
  | nil => rw [encode_nil, List.count_nil, List.count_nil]
  | cons c cs ih =>
    rw [encode_cons, List.count_append, ih]
    by_cases hc : c = '\n'
    · subst hc
      rw [List.count_cons_self, Nat.add_comm]
      rfl
    · rw [List.count_cons_of_ne hc, List.count_eq_zero.2 (newline_not_mem hc), Nat.zero_add]

theorem Utf8.count_take_encode {cs : List Char} (h : '\n' ∉ cs) (n : Nat) :
    ((encode cs).take n).count 0x0A = 0 := by
  have hle := (List.take_sublist n (encode cs)).count_le 0x0A
  rw [count_encode, List.count_eq_zero.2 h] at hle
  omega

/-- What stands in front of a piece, and behind it. -/
theorem exists_after_piece {cs piece : List Char} {k : Nat} (h : (pieces cs)[k]? = some piece) :
    ∃ after, cs = ofLines ((pieces cs).take k) ++ (piece ++ after) := by
  induction cs using line_induction generalizing k with
  | last line hline =>
    rw [pieces_of_not_mem hline] at h ⊢
    cases k with
    | zero =>
      obtain rfl : line = piece := Option.some.inj h
      exact ⟨[], by simp⟩
    | succ k => cases h
  | next line rest hline ih =>
    rw [pieces_line hline] at h ⊢
    cases k with
    | zero =>
      obtain rfl : line = piece := Option.some.inj h
      exact ⟨'\n' :: rest, by simp⟩
    | succ k =>
      obtain ⟨after, hafter⟩ := ih h
      refine ⟨after, ?_⟩
      rw [List.take_succ_cons, ofLines_cons, List.append_assoc, List.cons_append, ← hafter]

namespace LineIndex

/-! ### Where lines start -/

theorem pairwise_startsFrom (offset : Nat) (cs : List Char) :
    (startsFrom offset cs).Pairwise (· < ·) := by
  induction cs generalizing offset with
  | nil => exact .nil
  | cons c cs ih =>
    rw [startsFrom]
    split
    · exact .cons (fun n hn => (startsFrom_bounds hn).1) (ih _)
    · exact ih _

theorem pairwise_starts (cs : List Char) : (ofText cs).starts.Pairwise (· < ·) :=
  .cons (fun _ hn => (startsFrom_bounds hn).1) (pairwise_startsFrom 0 cs)

theorem length_starts (cs : List Char) : (ofText cs).starts.length = (pieces cs).length := by
  rw [length_pieces, ofText, List.length_cons, length_startsFrom, lineCount]

/-- A line starts behind the pieces in front of it and their line feeds. -/
theorem lineStart?_eq {cs : List Char} {k : Nat} (h : k < (pieces cs).length) :
    (ofText cs).lineStart? k = some (size (ofLines ((pieces cs).take k))) := by
  obtain ⟨after, hafter⟩ := exists_after_piece (List.getElem?_eq_getElem h)
  have hlines : ∀ line ∈ (pieces cs).take k, '\n' ∉ line :=
    fun line hline => not_mem_of_mem_pieces (List.mem_of_mem_take hline)
  have hstart := lineStart?_ofLines hlines ((pieces cs)[k] ++ after)
  rwa [← hafter, List.length_take_of_le (Nat.le_of_lt h)] at hstart

/-! ### The line of an offset -/

theorem le_iff_lt_length_filter {starts : List Nat} (h : starts.Pairwise (· < ·)) {i start : Nat}
    (hstart : starts[i]? = some start) (offset : Nat) :
    start ≤ offset ↔ i < (starts.filter (· ≤ offset)).length := by
  induction starts generalizing i with
  | nil => simp at hstart
  | cons first starts ih =>
    rw [List.pairwise_cons] at h
    by_cases hfirst : first ≤ offset
    · rw [List.filter_cons_of_pos (by simpa using hfirst), List.length_cons]
      cases i with
      | zero =>
        obtain rfl : first = start := Option.some.inj hstart
        omega
      | succ i =>
        rw [List.getElem?_cons_succ] at hstart
        rw [ih h.2 hstart]
        omega
    · have hnone : starts.filter (· ≤ offset) = [] := by
        rw [List.filter_eq_nil_iff]
        intro n hn
        have hlt := h.1 n hn
        simp only [decide_eq_true_eq]
        omega
      rw [List.filter_cons_of_neg (by simpa using hfirst), hnone, List.length_nil]
      have hmem : start ∈ first :: starts := List.mem_of_getElem? hstart
      rcases List.mem_cons.1 hmem with rfl | hmem
      · omega
      · have hlt := h.1 start hmem
        omega

/-- A line starts at an offset or in front of it exactly if it is the line of the offset or one
above it. -/
theorem start_le_iff {cs : List Char} {i start : Nat} (h : (ofText cs).lineStart? i = some start)
    (offset : Nat) :
    start ≤ offset ↔ i ≤ (ofText cs).lineOf offset := by
  have hpos : 0 < ((ofText cs).starts.filter (· ≤ offset)).length := by
    rw [ofText, List.filter_cons_of_pos (by simp)]
    exact Nat.succ_pos _
  rw [le_iff_lt_length_filter (pairwise_starts cs) h, lineOf]
  omega

/-- The line of an offset is the number of line feeds in front of it. -/
theorem lineOf_eq_count (cs : List Char) (offset : Nat) :
    (ofText cs).lineOf offset = ((Utf8.encode cs).take offset).count 0x0A := by
  induction cs using line_induction generalizing offset with
  | last line hline =>
    have hlt := lineOf_lt line offset
    rw [lineCount, List.count_eq_zero.2 hline] at hlt
    rw [Utf8.count_take_encode hline]
    omega
  | next line rest hline ih =>
    have hfirst : line ++ '\n' :: rest = (line ++ ['\n']) ++ rest := by simp
    have hsize : size (line ++ ['\n']) = size line + 1 := size_append _ _
    by_cases hle : offset ≤ size line
    · have hmono := lineOf_mono (ofText (line ++ '\n' :: rest)) hle
      rw [lineOf_size, List.count_eq_zero.2 hline] at hmono
      rw [Utf8.encode_append, List.take_append_of_le_length (by rwa [Utf8.length_encode]),
        Utf8.count_take_encode hline]
      omega
    · obtain ⟨more, rfl⟩ : ∃ more, offset = size (line ++ ['\n']) + more :=
        ⟨offset - size (line ++ ['\n']), by omega⟩
      have hbytes := Utf8.count_encode (line ++ ['\n'])
      rw [hfirst, lineOf_append_add, ih, Utf8.encode_append, ← Utf8.length_encode,
        List.take_length_add_append, ← hbytes, List.count_append]

theorem lineOf_of_size_le {cs : List Char} {offset : Nat} (h : size cs ≤ offset) :
    (ofText cs).lineOf offset + 1 = (pieces cs).length := by
  have hlt := lineOf_lt cs offset
  have hmono := lineOf_mono (ofText (cs ++ [])) h
  rw [lineOf_size, List.append_nil] at hmono
  rw [length_pieces]
  rw [lineCount] at hlt ⊢
  omega

theorem lineStart?_lineOf (cs : List Char) (offset : Nat) :
    ∃ start, (ofText cs).lineStart? ((ofText cs).lineOf offset) = some start := by
  have hlt := lineOf_lt cs offset
  rw [← length_pieces, ← length_starts] at hlt
  exact ⟨_, List.getElem?_eq_getElem hlt⟩

theorem lineOf_lineStart {cs : List Char} {k start : Nat}
    (h : (ofText cs).lineStart? k = some start) :
    (ofText cs).lineOf start = k := by
  have hle : k ≤ (ofText cs).lineOf start := (start_le_iff h start).1 (Nat.le_refl start)
  obtain ⟨first, hfirst⟩ := lineStart?_lineOf cs start
  have hstart : first ≤ start := (start_le_iff hfirst start).2 (Nat.le_refl _)
  -- a later line would start behind the offset
  obtain ⟨hk, rfl⟩ := List.getElem?_eq_some_iff.1 h
  obtain ⟨hline, rfl⟩ := List.getElem?_eq_some_iff.1 hfirst
  by_contra hne
  have hlt := List.pairwise_iff_getElem.1 (pairwise_starts cs) k _ hk hline (by omega)
  omega

/-! ### The index and the pieces -/

/-- The index and the pieces of a text give the same lines. -/
structure Agrees (index : LineIndex) (cs : List Char) : Prop where
  ascending : index.starts.Pairwise (· < ·)
  /-- A line exists for every piece. -/
  length_eq : index.starts.length = (pieces cs).length
  lineOf_eq : ∀ offset, index.lineOf offset = ((Utf8.encode cs).take offset).count 0x0A
  lineOf_end : ∀ offset, size cs ≤ offset → index.lineOf offset + 1 = (pieces cs).length
  lineStart_eq : ∀ k < (pieces cs).length, index.lineStart? k =
    some (size (ofLines ((pieces cs).take k)))
  lineOf_lineStart : ∀ k start, index.lineStart? k = some start → index.lineOf start = k
  lineStart_le : ∀ offset, ∃ start, index.lineStart? (index.lineOf offset) = some start ∧
    start ≤ offset
  lt_next : ∀ offset next, index.lineStart? (index.lineOf offset + 1) = some next → offset < next
  byte_eq : ∀ k piece start, (pieces cs)[k]? = some piece → index.lineStart? k = some start →
    ∀ i < size piece, (Utf8.encode cs)[start + i]? = (Utf8.encode piece)[i]?

/-- For every text, finding the line of an offset and cutting the text at its line feeds agree. -/
theorem ofText_agrees (cs : List Char) : (ofText cs).Agrees cs := by
  refine ⟨pairwise_starts cs, length_starts cs, lineOf_eq_count cs, fun _ => lineOf_of_size_le,
    fun _ => lineStart?_eq, fun _ _ => lineOf_lineStart, ?_, ?_, ?_⟩
  · intro offset
    obtain ⟨start, hstart⟩ := lineStart?_lineOf cs offset
    exact ⟨start, hstart, (start_le_iff hstart offset).2 (Nat.le_refl _)⟩
  · intro offset next hnext
    have hnot := mt (start_le_iff hnext offset).1 (Nat.not_succ_le_self _)
    omega
  · intro k piece start hpiece hstart i hi
    have hk : k < (pieces cs).length := (List.getElem?_eq_some_iff.1 hpiece).1
    rw [lineStart?_eq hk, Option.some_inj] at hstart
    obtain ⟨after, hafter⟩ := exists_after_piece hpiece
    have hbytes : Utf8.encode cs = Utf8.encode (ofLines ((pieces cs).take k)) ++
        (Utf8.encode piece ++ Utf8.encode after) := by
      rw [← Utf8.encode_append, ← Utf8.encode_append, ← hafter]
    rw [hbytes, ← hstart, ← Utf8.length_encode, List.getElem?_append_right (Nat.le_add_right _ _),
      Nat.add_sub_cancel_left, List.getElem?_append_left (by rwa [Utf8.length_encode])]

end LineIndex

end CodeSurvey.Text
