import CodeSurvey.Proofs.Attribution.Basic
import CodeSurvey.Proofs.Text.Cut

/-!
# Heads and what stands above them

What a line says about attribution depends on the text from that line on, on the depth that is
reached there and on the number of the line, and on nothing else above it. So the lines that take
part in scopes can be read off from a masked text from the top to the bottom, without offsets.
-/
namespace CodeSurvey

namespace SourceText

/-- A text that is its own masked form. -/
def plain (masked : List Char) : SourceText :=
  ⟨masked, masked, .ofText masked, Text.pieces masked, Text.pieces masked⟩

/-- The lines, and below them the rest, make up the masked text. -/
structure Below (s : SourceText) (lines : List (List Char)) (rest : List Char) : Prop where
  masked : s.masked = Text.ofLines lines ++ rest
  index : s.index = .ofText s.masked
  no_newline : ∀ line ∈ lines, '\n' ∉ line

theorem below_ofText (lexis : Lexis) (text : List Char) :
    (ofText lexis text).Below [] (mask lexis text) :=
  ⟨rfl, rfl, nofun⟩

variable {s : SourceText} {lines : List (List Char)} {line rest : List Char}

namespace Below

theorem next (h : s.Below lines (line ++ '\n' :: rest)) (hline : '\n' ∉ line) :
    s.Below (lines ++ [line]) rest := by
  refine ⟨?_, h.index, ?_⟩
  · rw [h.masked]
    simp
  · intro l hl
    rcases List.mem_append.1 hl with hl | hl
    · exact h.no_newline l hl
    · rwa [List.mem_singleton.1 hl]

theorem lineStart (h : s.Below lines rest) :
    s.lineStart lines.length = Text.size (Text.ofLines lines) := by
  rw [SourceText.lineStart, h.index, h.masked, Text.LineIndex.lineStart?_ofLines h.no_newline]
  rfl

theorem lineOf (h : s.Below lines rest) (offset : Nat) :
    s.index.lineOf (Text.size (Text.ofLines lines) + offset) =
      lines.length + (plain rest).index.lineOf offset := by
  rw [h.index, h.masked, Text.LineIndex.lineOf_append_add, Text.count_ofLines h.no_newline]
  rfl

end Below

end SourceText

open SourceText

theorem Pattern.one_le_stop {p : Pattern} {c : Char} {line : List Char} {m : Match}
    (h : (Pattern.seq p (one c)).matchHead? line = some m) : 1 ≤ m.whole.stop.offset := by
  obtain ⟨t, ht, rfl⟩ := exists_way_of_matchAt? h
  obtain ⟨u, -, hu⟩ := List.mem_flatMap.1 ht
  obtain ⟨-, x, hread, -⟩ := reads_of_mem_ways_char hu
  have hoffset := hread.offset
  have hx := x.utf8Size_pos
  simp only [Text.size_cons, Text.size_nil] at hoffset
  dsimp only
  omega

variable {s : SourceText} {lines : List (List Char)} {line rest : List Char}

/-! ### Braces -/

namespace Swift

theorem name_head?_below (h : s.Below lines rest) (line : List Char) :
    (head? s lines.length line).map Head.name = (head? (.plain rest) 0 line).map Head.name := by
  rw [head?, head?, h.lineStart, h.masked]
  cases hmatch : functionHead.matchHead? line with
  | none => rfl
  | some m =>
    have hstop := Pattern.one_le_stop hmatch
    have hopening : Text.size (Text.ofLines lines) + m.whole.stop.offset - 1 =
        Text.size (Text.ofLines lines) + ((plain rest).lineStart 0 + m.whole.stop.offset - 1) := by
      have hstart : (plain rest).lineStart 0 = 0 := rfl
      omega
    have hmasked : (plain rest).masked = rest := rfl
    simp only [Option.bind_eq_bind, Option.bind_some, hopening, matchingParen?_append_add, hmasked]
    cases matchingParen? rest ((plain rest).lineStart 0 + m.whole.stop.offset - 1) <;> rfl

/-- The type or the function whose head stands on the first line of a text. -/
def headOn? (rest line : List Char) : Option (FrameKind × String) :=
  ((typeName? line).map fun name => (.type, name)).or
    (((head? (.plain rest) 0 line).map Head.name).map fun name => (.function, name))

/-- The lines that take part in scopes, from line `number` on, where `depth` braces are open. -/
def headedFrom (depth number : Nat) : List (List Char) → List HeadedLine
  | [] => []
  | line :: later =>
    (if Text.isBlankLine line then []
      else [⟨number, depth, headOn? (['\n'].intercalate (line :: later)) line⟩]) ++
      headedFrom (braceDepthAfter depth line) (number + 1) later

theorem headedFrom_last (hline : '\n' ∉ line) (depth number : Nat) :
    headedFrom depth number (Text.pieces line) =
      if Text.isBlankLine line then [] else [⟨number, depth, headOn? line line⟩] := by
  rw [Text.pieces_of_not_mem hline, headedFrom, headedFrom, List.append_nil,
    Text.intercalate_singleton]

theorem headedFrom_next (hline : '\n' ∉ line) (depth number : Nat) :
    headedFrom depth number (Text.pieces (line ++ '\n' :: rest)) =
      (if Text.isBlankLine line then []
        else [⟨number, depth, headOn? (line ++ '\n' :: rest) line⟩]) ++
        headedFrom (braceDepthAfter depth line) (number + 1) (Text.pieces rest) := by
  rw [Text.pieces_line hline, headedFrom, Text.intercalate_pieces_line hline]

theorem headedLine_below (h : s.Below lines rest) (line : List Char) (depth : Nat) :
    headedLine s ((line, lines.length), depth) = ⟨lines.length, depth, headOn? rest line⟩ := by
  rw [headedLine, headOn?, ← name_head?_below h line, Option.map_map]
  rfl

theorem headedFrom_of_below (h : s.Below lines rest) (depth : Nat) :
    ((((Text.pieces rest).zipIdx lines.length).zip
      (braceDepthsFrom depth (Text.pieces rest))).filter
      fun e => !Text.isBlankLine e.1.1).map (headedLine s) =
        headedFrom depth lines.length (Text.pieces rest) := by
  have hfirst : ∀ {rest line : List Char} {lines : List (List Char)} {depth : Nat}
      {more : List ((List Char × Nat) × Nat)}, s.Below lines rest →
      ((((line, lines.length), depth) :: more).filter fun e => !Text.isBlankLine e.1.1).map
        (headedLine s) =
        (if Text.isBlankLine line then [] else [⟨lines.length, depth, headOn? rest line⟩]) ++
          (more.filter fun e => !Text.isBlankLine e.1.1).map (headedLine s) := by
    intro rest line lines depth more h
    by_cases hblank : Text.isBlankLine line = true
    · rw [List.filter_cons_of_neg (by simp [hblank]), if_pos hblank, List.nil_append]
    · rw [List.filter_cons_of_pos (by simp [hblank]), if_neg hblank, List.map_cons,
        headedLine_below h]
      rfl
  induction rest using Text.line_induction generalizing lines depth with
  | last line hline =>
    rw [headedFrom_last hline, Text.pieces_of_not_mem hline, List.zipIdx_cons, List.zipIdx_nil,
      braceDepthsFrom, braceDepthsFrom, List.zip_cons_cons, List.zip_nil_left, hfirst h]
    exact List.append_nil _
  | next line rest hline ih =>
    have hlater := ih (h.next hline) (braceDepthAfter depth line)
    rw [List.length_append, List.length_singleton] at hlater
    rw [headedFrom_next hline, Text.pieces_line hline, List.zipIdx_cons, braceDepthsFrom,
      List.zip_cons_cons, hfirst h, hlater]

theorem headedLines_eq (text : List Char) :
    headedLines text = headedFrom 0 0 (Text.pieces (mask lexis text)) :=
  headedFrom_of_below (below_ofText lexis text) 0

end Swift

/-! ### Indentation -/

namespace Python

theorem colonFrom?_add (n offset depth : Nat) (cs : List Char) :
    colonFrom? (n + offset) depth cs = (colonFrom? offset depth cs).map (n + ·) := by
  induction cs generalizing offset depth with
  | nil => rfl
  | cons c cs ih =>
    simp only [colonFrom?, Nat.add_assoc, ih]
    split
    · rfl
    · split
      · rfl
      · split
        · rfl
        · split <;> rfl

/-- The name of the function whose head stands on the first line of a text, and how far down the
head goes. -/
def functionIn? (rest line : List Char) : Option (String × Nat) :=
  (head? (.plain rest) 0 line).map fun h => (h.name, (plain rest).index.lineOf h.colon)

theorem head?_below (h : s.Below lines rest) (line : List Char) :
    (head? s lines.length line).map (fun head => (head.name, s.index.lineOf head.colon)) =
      (functionIn? rest line).map fun f => (f.1, lines.length + f.2) := by
  rw [functionIn?, head?, head?, h.lineStart, h.masked]
  cases hmatch : defHead.matchHead? line with
  | none => rfl
  | some m =>
    have hstop := Pattern.one_le_stop hmatch
    have hopening : Text.size (Text.ofLines lines) + m.whole.stop.offset - 1 =
        Text.size (Text.ofLines lines) + ((plain rest).lineStart 0 + m.whole.stop.offset - 1) := by
      have hstart : (plain rest).lineStart 0 = 0 := rfl
      omega
    have hmasked : (plain rest).masked = rest := rfl
    simp only [Option.bind_eq_bind, Option.bind_some, hopening, matchingParen?_append_add, hmasked]
    cases matchingParen? rest ((plain rest).lineStart 0 + m.whole.stop.offset - 1) with
    | none => rfl
    | some closing =>
      simp only [Option.map_some, Option.bind_some, Text.slice_append_add]
      split
      · rfl
      · rw [Nat.add_assoc, Text.dropBytes_append_add, colonFrom?_add]
        cases colonFrom? (closing + 1) 0 (Text.dropBytes (closing + 1) rest) with
        | none => rfl
        | some colon =>
          simp only [Option.map_some, Option.bind_some, Option.pure_def, h.lineOf]

/-- The class or the function whose head stands on the first line of a text. -/
def headOn? (rest line : List Char) : Option (FrameKind × String) :=
  ((classHead.matchHead? line).map fun m => (.type, m.string "name")).or
    ((functionIn? rest line).map fun f => (.function, f.1))

/-- The first line that is not covered by a head, after line `number`. -/
def resumeFrom (resume number : Nat) (rest line : List Char) : Nat :=
  if (classHead.matchHead? line).isSome then resume
  else (functionIn? rest line).elim resume fun f => number + f.2 + 1

/-- The lines that take part in scopes, from line `number` on. -/
def headedFrom (resume number : Nat) : List (List Char) → List HeadedLine
  | [] => []
  | line :: later =>
    let rest := ['\n'].intercalate (line :: later)
    if number < resume || Text.isBlankLine line then headedFrom resume (number + 1) later
    else ⟨number, indentWidth line, headOn? rest line⟩ ::
      headedFrom (resumeFrom resume number rest line) (number + 1) later

theorem headedFrom_last (hline : '\n' ∉ line) (resume number : Nat) :
    headedFrom resume number (Text.pieces line) =
      if number < resume || Text.isBlankLine line then [] else [⟨number, indentWidth line,
        headOn? line line⟩] := by
  rw [Text.pieces_of_not_mem hline, headedFrom, headedFrom, headedFrom, Text.intercalate_singleton]

theorem headedFrom_next (hline : '\n' ∉ line) (resume number : Nat) :
    headedFrom resume number (Text.pieces (line ++ '\n' :: rest)) =
      if number < resume || Text.isBlankLine line then
        headedFrom resume (number + 1) (Text.pieces rest)
      else ⟨number, indentWidth line, headOn? (line ++ '\n' :: rest) line⟩ ::
        headedFrom (resumeFrom resume number (line ++ '\n' :: rest) line) (number + 1)
          (Text.pieces rest) := by
  rw [Text.pieces_line hline, headedFrom, Text.intercalate_pieces_line hline]

theorem headedLine_below (h : s.Below lines rest) (line : List Char) :
    headedLine s (line, lines.length) = ⟨lines.length, indentWidth line, headOn? rest line⟩ := by
  have hhead := congrArg (Option.map fun f => (FrameKind.function, f.1)) (head?_below h line)
  rw [Option.map_map, Option.map_map] at hhead
  rw [headedLine, headOn?]
  congr 2

theorem resumeAfter_below (h : s.Below lines rest) (resume : Nat) (line : List Char) :
    resumeAfter s resume line lines.length = resumeFrom resume lines.length rest line := by
  have hbelow := head?_below h line
  rw [resumeAfter, functionOn?, resumeFrom]
  cases classHead.matchHead? line with
  | some m => rfl
  | none =>
    rw [if_neg (by simp)]
    dsimp only
    cases hhead : head? s lines.length line with
    | none =>
      rw [hhead] at hbelow
      have hnone : functionIn? rest line = none := by simpa using hbelow.symm
      rw [hnone]
      rfl
    | some head =>
      rw [hhead] at hbelow
      obtain ⟨f, hf, hpair⟩ := Option.map_eq_some_iff.1 hbelow.symm
      rw [hf]
      exact congrArg (fun g => g.2 + 1) hpair.symm

theorem headedFrom_of_below (h : s.Below lines rest) (resume : Nat) :
    (logicalLines s resume ((Text.pieces rest).zipIdx lines.length)).map (headedLine s) =
      headedFrom resume lines.length (Text.pieces rest) := by
  induction rest using Text.line_induction generalizing lines resume with
  | last line hline =>
    rw [headedFrom_last hline, Text.pieces_of_not_mem hline, List.zipIdx_cons, List.zipIdx_nil,
      logicalLines, logicalLines, logicalLines]
    split
    · rfl
    · rw [List.map_cons, headedLine_below h]
      rfl
  | next line rest hline ih =>
    have hlater := fun resume => ih (h.next hline) resume
    simp only [List.length_append, List.length_singleton] at hlater
    rw [headedFrom_next hline, Text.pieces_line hline, List.zipIdx_cons, logicalLines]
    split
    · exact hlater resume
    · rw [List.map_cons, headedLine_below h, resumeAfter_below h, hlater]

theorem headedLines_eq (text : List Char) :
    headedLines text = headedFrom 0 0 (Text.pieces (mask lexis text)) :=
  headedFrom_of_below (below_ofText lexis text) 0

end Python

end CodeSurvey
