import CodeSurvey.Proofs.Attribution.Local
import CodeSurvey.Proofs.Pattern.Ending

/-!
# Heads around a gap

Of a literal over several lines the masked text shows its quotes, and between them a gap of spaces
and line feeds. A head may go on over such a gap: parameters may have literals as defaults, and an
annotation may hold one. Where the head ends is first said without offsets, and then does not depend
on how wide the lines of the gap are.
-/
namespace CodeSurvey

namespace Python

/-- Two texts of spaces with the same number of line feeds. -/
structure Gaps (gap other : List Char) : Prop where
  left : ∀ c ∈ gap, c = ' ' ∨ c = '\n'
  right : ∀ c ∈ other, c = ' ' ∨ c = '\n'
  count_eq : gap.count '\n' = other.count '\n'

variable {gap other : List Char} {q : Char}

theorem Gaps.symm (h : Gaps gap other) : Gaps other gap :=
  ⟨h.right, h.left, h.count_eq.symm⟩

theorem Gaps.not_mem (h : Gaps gap other) {c : Char} (hspace : c ≠ ' ') (hnewline : c ≠ '\n') :
    c ∉ gap :=
  fun hc => (h.left c hc).elim hspace hnewline

theorem Gaps.mem_newline (h : Gaps gap other) : '\n' ∈ gap ↔ '\n' ∈ other := by
  rw [← List.count_pos_iff, h.count_eq, List.count_pos_iff]

/-! ### Where a head ends -/

/-- Outside brackets the text has no colon and no line feed, and all its brackets are closed. -/
def Leads : Nat → List Char → Prop
  | depth, [] => depth = 0
  | depth, c :: cs =>
    if Parameter.opensBracket false c then Leads (depth + 1) cs
    else if Parameter.closesBracket false c then Leads (depth - 1) cs
    else (depth = 0 → c ≠ ':' ∧ c ≠ '\n') ∧ Leads depth cs

theorem leads_gap (hgap : ∀ c ∈ gap, c = ' ' ∨ c = '\n') (depth : Nat) (rest : List Char) :
    Leads depth (gap ++ rest) ↔ (depth = 0 → '\n' ∉ gap) ∧ Leads depth rest := by
  induction gap with
  | nil => simp
  | cons c gap ih =>
    obtain ⟨hc, hmore⟩ := List.forall_mem_cons.1 hgap
    rcases hc with rfl | rfl
    · rw [List.cons_append, Leads, if_neg (by decide), if_neg (by decide), ih hmore]
      simp
    · rw [List.cons_append, Leads, if_neg (by decide), if_neg (by decide), ih hmore]
      by_cases hdepth : depth = 0 <;> simp [hdepth]

theorem Gaps.leads_iff (h : Gaps gap other) (depth : Nat) (before after : List Char) :
    Leads depth (before ++ (gap ++ after)) ↔ Leads depth (before ++ (other ++ after)) := by
  induction before generalizing depth with
  | nil => rw [List.nil_append, List.nil_append, leads_gap h.left, leads_gap h.right, h.mem_newline]
  | cons c before ih => simp only [List.cons_append, Leads, ih]

theorem colonFrom?_eq_some_iff {offset depth colon : Nat} {cs : List Char} :
    colonFrom? offset depth cs = some colon ↔ FoundBehind (Leads depth) ':' offset colon cs := by
  have hbracket : ¬Parameter.opensBracket false ':' = true ∧
      ¬Parameter.closesBracket false ':' = true := by decide
  induction cs generalizing offset depth with
  | nil => simp [colonFrom?, FoundBehind]
  | cons c cs ih =>
    rw [colonFrom?]
    by_cases hopens : Parameter.opensBracket false c = true
    · have hne : c ≠ ':' := fun hc => hbracket.1 (hc ▸ hopens)
      rw [if_pos hopens]
      refine ih.trans (foundBehind_cons_iff (by rfl) (fun hc => absurd hc hne) fun lead => ?_)
      rw [Leads, if_pos hopens]
    · rw [if_neg hopens]
      by_cases hcloses : Parameter.closesBracket false c = true
      · have hne : c ≠ ':' := fun hc => hbracket.2 (hc ▸ hcloses)
        rw [if_pos hcloses]
        refine ih.trans (foundBehind_cons_iff (by rfl) (fun hc => absurd hc hne) fun lead => ?_)
        rw [Leads, if_neg hopens, if_pos hcloses]
      · have hleads : ∀ lead, Leads depth (c :: lead) ↔
            (depth = 0 → c ≠ ':' ∧ c ≠ '\n') ∧ Leads depth lead := by
          intro lead
          rw [Leads, if_neg hopens, if_neg hcloses]
        rw [if_neg hcloses]
        by_cases hcolon : c = ':' ∧ depth = 0
        · obtain ⟨rfl, rfl⟩ := hcolon
          have hhere : Leads 0 [] := rfl
          rw [if_pos (by decide), Option.some_inj, eq_comm, foundBehind_here_iff hhere]
          exact fun lead hlead => (((hleads lead).1 hlead).1 rfl).1 rfl
        · rw [if_neg (by simpa using hcolon)]
          by_cases hnewline : c = '\n' ∧ depth = 0
          · obtain ⟨rfl, rfl⟩ := hnewline
            rw [if_pos (by decide)]
            refine iff_of_false (by simp) (not_foundBehind (by decide) fun lead hlead => ?_)
            exact (((hleads lead).1 hlead).1 rfl).2 rfl
          · have hpasses : depth = 0 → c ≠ ':' ∧ c ≠ '\n' :=
              fun hdepth => ⟨fun hc => hcolon ⟨hc, hdepth⟩, fun hc => hnewline ⟨hc, hdepth⟩⟩
            rw [if_neg (by simpa using hnewline)]
            refine ih.trans (foundBehind_cons_iff (by rfl)
              (fun hc hdepth => hcolon ⟨hc, hdepth⟩) fun lead => ?_)
            exact (hleads lead).trans (and_iff_right hpasses)

/-- From the parenthesis at `opening` on there are parameters and then a colon, `below` lines
down. -/
def HeadEnds (text : List Char) (opening below : Nat) : Prop :=
  ∃ front inner lead after, text = front ++ '(' :: (inner ++ ')' :: (lead ++ ':' :: after)) ∧
    Text.size front = opening ∧ Closes 1 inner ∧ runsIntoDeclaration ('(' :: inner) = false ∧
    Leads 0 lead ∧
    below = front.count '\n' + inner.count '\n' + lead.count '\n'

theorem functionIn?_of_match {rest line : List Char} {m : Pattern.Match}
    (hmatch : defHead.matchHead? line = some m) :
    functionIn? rest line = (matchingParen? rest (m.whole.stop.offset - 1)).bind fun closing =>
      if runsIntoDeclaration (Text.slice rest (m.whole.stop.offset - 1) closing) then none
      else (colonFrom? (closing + 1) 0 (Text.dropBytes (closing + 1) rest)).map fun colon =>
        (m.string "name", (Text.LineIndex.ofText rest).lineOf colon) := by
  have hopening : (SourceText.plain rest).lineStart 0 + m.whole.stop.offset - 1 =
      m.whole.stop.offset - 1 := by
    have hstart : (SourceText.plain rest).lineStart 0 = 0 := rfl
    omega
  have hmasked : (SourceText.plain rest).masked = rest := rfl
  rw [functionIn?, head?, hmatch]
  simp only [Option.bind_eq_bind, Option.bind_some, hopening, hmasked]
  cases matchingParen? rest (m.whole.stop.offset - 1) with
  | none => rfl
  | some closing =>
    simp only [Option.bind_some]
    split
    · rfl
    · cases colonFrom? (closing + 1) 0 (Text.dropBytes (closing + 1) rest) <;> rfl

section Offsets

variable (front inner : List Char)

theorem slice_params (rest : List Char) :
    Text.slice (front ++ '(' :: (inner ++ ')' :: rest)) (Text.size front)
      (Text.size front + 1 + Text.size inner) =
      '(' :: inner := by
  have hopen : '('.utf8Size = 1 := rfl
  refine @Text.slice_append _ _ front ('(' :: inner) (')' :: rest) rfl ?_
  rw [Text.size_cons, hopen, Nat.add_assoc]

theorem size_params (lead : List Char) :
    Text.size (front ++ '(' :: (inner ++ ')' :: lead)) =
      Text.size front + 1 + Text.size inner + 1 + Text.size lead := by
  have hparens : '('.utf8Size = 1 ∧ ')'.utf8Size = 1 := ⟨rfl, rfl⟩
  simp only [Text.size_append, Text.size_cons]
  omega

theorem dropBytes_params (rest : List Char) :
    Text.dropBytes (Text.size front + 1 + Text.size inner + 1)
      (front ++ '(' :: (inner ++ ')' :: rest)) = rest := by
  have hcut : front ++ '(' :: (inner ++ ')' :: rest) =
      (front ++ '(' :: (inner ++ ')' :: [])) ++ rest := by simp
  have hsize := size_params front inner []
  rw [Text.size_nil, Nat.add_zero] at hsize
  rw [← hsize, hcut, Text.dropBytes_append]

theorem lineOf_colon (lead after : List Char) :
    (Text.LineIndex.ofText (front ++ '(' :: (inner ++ ')' :: (lead ++ ':' :: after)))).lineOf
        (Text.size front + 1 + Text.size inner + 1 + Text.size lead) =
      front.count '\n' + inner.count '\n' + lead.count '\n' := by
  have hcut : front ++ '(' :: (inner ++ ')' :: (lead ++ ':' :: after)) =
      (front ++ '(' :: (inner ++ ')' :: lead)) ++ ':' :: after := by simp
  rw [← size_params, hcut, Text.LineIndex.lineOf_size, List.count_append,
    List.count_cons_of_ne (by decide), List.count_append, List.count_cons_of_ne (by decide),
    Nat.add_assoc]

end Offsets

theorem functionIn?_eq_some_iff {rest line : List Char} {f : String × Nat} :
    functionIn? rest line = some f ↔ ∃ m, defHead.matchHead? line = some m ∧ f.1 = m.string "name" ∧
      HeadEnds rest (m.whole.stop.offset - 1) f.2 := by
  cases hmatch : defHead.matchHead? line with
  | none =>
    have hnone : functionIn? rest line = none := by
      rw [functionIn?, head?, hmatch]
      rfl
    simp [hnone]
  | some m =>
    rw [functionIn?_of_match hmatch, Option.bind_eq_some_iff]
    constructor
    · rintro ⟨closing, hclosing, h⟩
      obtain ⟨front, inner, tail, rfl, hfront, rfl, hinner⟩ := matchingParen?_eq_some_iff.1 hclosing
      rw [← hfront, slice_params, dropBytes_params] at h
      split at h
      · cases h
      · rename_i hruns
        obtain ⟨colon, hcolon, rfl⟩ := Option.map_eq_some_iff.1 h
        obtain ⟨lead, after, rfl, rfl, hlead⟩ := colonFrom?_eq_some_iff.1 hcolon
        exact ⟨m, rfl, rfl, front, inner, lead, after, rfl, hfront, hinner, by simpa using hruns,
          hlead, lineOf_colon front inner lead after⟩
    · rintro ⟨m', hm, hname, front, inner, lead, after, rfl, hfront, hinner, hruns, hlead, hbelow⟩
      obtain rfl := Option.some.inj hm
      refine ⟨_, matchingParen?_eq_some_iff.2 ⟨front, inner, _, rfl, hfront, rfl, hinner⟩, ?_⟩
      rw [← hfront, slice_params, dropBytes_params, if_neg (by simp [hruns]),
        Option.map_eq_some_iff]
      refine ⟨_, colonFrom?_eq_some_iff.2 ⟨lead, after, rfl, rfl, hlead⟩, ?_⟩
      rw [lineOf_colon, ← hbelow, ← hname]

/-! ### Lines with a quote -/

theorem ignores_quote (hq : q = '"' ∨ q = '\'') (rest : List Char) :
    classHead.Ignores (q :: rest) ∧ defHead.Ignores (q :: rest) := by
  have hwords : ∀ {w : String}, (w.toList.all fun c => !('"' == c) && !('\'' == c)) = true →
      ∀ c ∈ w.toList, Pattern.Stops (· == c) (q :: rest) := by
    intro w hall c hc
    have hne := List.all_eq_true.1 hall c hc
    rw [Bool.and_eq_true] at hne
    rcases hq with rfl | rfl
    · simpa [Pattern.Stops] using hne.1
    · simpa [Pattern.Stops] using hne.2
  have hblank : Pattern.Stops Text.isBlank (q :: rest) := by rcases hq with rfl | rfl <;> rfl
  have hname : Pattern.Stops Text.isWord (q :: rest) := by rcases hq with rfl | rfl <;> rfl
  have hopen : Pattern.Stops (· == '(') (q :: rest) := by rcases hq with rfl | rfl <;> rfl
  constructor
  · refine .seq (.seq (Pattern.ignores_run hblank) ?_) (.group (Pattern.ignores_run1 hname) "name")
    exact Pattern.ignores_keyword (hwords rfl) hblank
  · refine .seq (.seq (.seq (.seq (.seq (Pattern.ignores_run hblank) (.opt ?_)) ?_)
      (.group (Pattern.ignores_run1 hname) "name")) (Pattern.ignores_run hblank))
        (Pattern.ignores_char hopen)
    · exact Pattern.ignores_keyword (hwords rfl) hblank
    · exact Pattern.ignores_keyword (hwords rfl) hblank

theorem matchHead?_spaces {line : List Char} (h : ∀ c ∈ line, c = ' ') :
    classHead.matchHead? line = none ∧ defHead.matchHead? line = none := by
  constructor
  · have hneeds : classHead.Needs Text.isWord :=
      .seq_right (.group ((Pattern.needs_char _).seq_left _) "name") _
    exact hneeds.matchHead?_eq_none fun c hc => h c hc ▸ rfl
  · have hneeds : defHead.Needs (· == '(') := .seq_right (Pattern.needs_char _) _
    exact hneeds.matchHead?_eq_none fun c hc => h c hc ▸ rfl

/-- Whether the head of a class or of a function stands on the line. -/
def startsDeclaration (line : List Char) : Bool :=
  (defHead.matchHead? line).isSome || (classHead.matchHead? line).isSome

theorem runsIntoDeclaration_eq (params : List Char) :
    runsIntoDeclaration params = (Text.lines params).tail.any startsDeclaration := by
  rw [runsIntoDeclaration, List.drop_one]
  rfl

theorem startsDeclaration_quote (hq : q = '"' ∨ q = '\'') (line rest : List Char) :
    startsDeclaration (line ++ q :: rest) = startsDeclaration line := by
  obtain ⟨hclass, hdef⟩ := ignores_quote hq rest
  rw [startsDeclaration, hclass.matchHead?, hdef.matchHead?, Option.isSome_map, Option.isSome_map,
    startsDeclaration]

theorem startsDeclaration_spaces {line : List Char} (h : ∀ c ∈ line, c = ' ') :
    startsDeclaration line = false := by
  obtain ⟨hclass, hdef⟩ := matchHead?_spaces h
  rw [startsDeclaration, hclass, hdef]
  rfl

theorem quote_ne (hq : q = '"' ∨ q = '\'') : q ≠ '\r' ∧ q ≠ '\n' := by
  rcases hq with rfl | rfl <;> decide

theorem spaces_of_gap {line : List Char} (h : ∀ c ∈ line, c = ' ' ∨ c = '\n')
    (hline : '\n' ∉ line) :
    ∀ c ∈ line, c = ' ' := by
  intro c hc
  refine (h c hc).resolve_right ?_
  rintro rfl
  exact hline hc

theorem any_lines_quote (hq : q = '"' ∨ q = '\'') {line : List Char} (hline : '\n' ∉ line)
    (rest : List Char) :
    (Text.lines (line ++ q :: rest)).any startsDeclaration =
      (startsDeclaration line || (Text.lines (q :: rest)).tail.any startsDeclaration) := by
  obtain ⟨more, hlines⟩ := Text.exists_lines_append (quote_ne hq).1 (quote_ne hq).2 hline rest
  rw [hlines, List.any_cons, startsDeclaration_quote hq]

/-- No declaration starts between quotes. -/
theorem any_lines_gap (hq : q = '"' ∨ q = '\'') (hgap : ∀ c ∈ gap, c = ' ' ∨ c = '\n')
    (rest : List Char) :
    (Text.lines (gap ++ q :: rest)).any startsDeclaration =
      (Text.lines (q :: rest)).tail.any startsDeclaration := by
  induction gap using Text.line_induction with
  | last line hline =>
    rw [any_lines_quote hq hline, startsDeclaration_spaces (spaces_of_gap hgap hline),
      Bool.false_or]
  | next line gap hline ih =>
    obtain ⟨hfirst, hmore⟩ := List.forall_mem_append.1 hgap
    have hspaces := spaces_of_gap hfirst hline
    have hreturn : '\r' ∉ line := fun hmem => absurd (hspaces _ hmem) (by decide)
    rw [List.append_assoc, List.cons_append, Text.lines_line hline, List.any_cons,
      Text.dropTail_of_not_mem hreturn, startsDeclaration_spaces hspaces, Bool.false_or,
      ih fun c hc => hmore c (List.mem_cons_of_mem _ hc)]

theorem any_tail_lines_gap (hq : q = '"' ∨ q = '\'') (hgap : ∀ c ∈ gap, c = ' ' ∨ c = '\n')
    {start : List Char} (hstart : '\n' ∉ start) (rest : List Char) :
    (Text.lines (start ++ q :: (gap ++ q :: rest))).tail.any startsDeclaration =
      (Text.lines (q :: rest)).tail.any startsDeclaration := by
  by_cases hmem : '\n' ∈ gap
  · obtain ⟨line, more, rfl, hline⟩ := Text.exists_first_line hmem
    have hfirst : '\n' ∉ start ++ q :: line := by simp [hstart, hline, Ne.symm (quote_ne hq).2]
    have hcut : start ++ q :: (line ++ '\n' :: more ++ q :: rest) =
        (start ++ q :: line) ++ '\n' :: (more ++ q :: rest) := by simp
    rw [hcut, Text.lines_line hfirst, List.tail_cons,
      any_lines_gap hq fun c hc => hgap c (by simp [hc])]
  · have hfirst : '\n' ∉ start ++ q :: gap := by simp [hstart, hmem, Ne.symm (quote_ne hq).2]
    have hcut : start ++ q :: (gap ++ q :: rest) = (start ++ q :: gap) ++ q :: rest := by simp
    rw [hcut, Text.tail_lines_append hfirst]

/-- Whether parameters run into a declaration does not depend on what is hidden between quotes. -/
theorem Gaps.runsIntoDeclaration_eq (h : Gaps gap other) (hq : q = '"' ∨ q = '\'')
    (before rest : List Char) :
    runsIntoDeclaration (before ++ q :: (gap ++ q :: rest)) =
      runsIntoDeclaration (before ++ q :: (other ++ q :: rest)) := by
  have hall : ∀ before : List Char, (Text.lines (before ++ q :: (gap ++ q :: rest))).any
      startsDeclaration =
      (Text.lines (before ++ q :: (other ++ q :: rest))).any startsDeclaration := by
    intro before
    induction before using Text.line_induction with
    | last line hline =>
      have hgap := any_tail_lines_gap hq h.left List.not_mem_nil rest
      have hother := any_tail_lines_gap hq h.right List.not_mem_nil rest
      rw [List.nil_append] at hgap hother
      rw [any_lines_quote hq hline, any_lines_quote hq hline, hgap, hother]
    | next line before hline ih =>
      simp only [List.append_assoc, List.cons_append, Text.lines_line hline, List.any_cons, ih]
  rw [Python.runsIntoDeclaration_eq, Python.runsIntoDeclaration_eq]
  by_cases hmem : '\n' ∈ before
  · obtain ⟨line, more, rfl, hline⟩ := Text.exists_first_line hmem
    simp only [List.append_assoc, List.cons_append, Text.lines_line hline, List.tail_cons, hall]
  · rw [any_tail_lines_gap hq h.left hmem, any_tail_lines_gap hq h.right hmem]

/-! ### Heads in front of a literal -/

/-- Where a head ends does not depend on what is hidden between quotes, if its parameters open in
front of them. -/
theorem Gaps.headEnds (h : Gaps gap other) (hq : q = '"' ∨ q = '\'') {before rest : List Char}
    {opening below : Nat} (hopening : opening < Text.size (before ++ [q]))
    (hends : HeadEnds (before ++ q :: (gap ++ q :: rest)) opening below) :
    HeadEnds (before ++ q :: (other ++ q :: rest)) opening below := by
  have hopen : '(' ∉ gap ∧ '(' ∉ other :=
    ⟨h.not_mem (by decide) (by decide), h.symm.not_mem (by decide) (by decide)⟩
  have hclose : ')' ∉ gap ∧ ')' ∉ other :=
    ⟨h.not_mem (by decide) (by decide), h.symm.not_mem (by decide) (by decide)⟩
  have hcolon : ':' ∉ gap := h.not_mem (by decide) (by decide)
  have hcut : ∀ gap, before ++ q :: (gap ++ q :: rest) =
      (before ++ [q]) ++ (gap ++ q :: rest) := by simp
  obtain ⟨front, inner, lead, after, htext, hfront, hinner, hruns, hlead, rfl⟩ := hends
  rw [hcut] at htext
  rw [hcut]
  rcases cut_of_not_mem hopen.1 htext with ⟨params, hbefore, hparams⟩ | ⟨_, rfl, -⟩
  · rw [hbefore]
    rcases cut_of_not_mem hclose.1 hparams.symm with ⟨returned, rfl, hreturned⟩ | ⟨last, rfl, hlast⟩
    · rcases cut_of_not_mem hcolon hreturned.symm with ⟨past, rfl, -⟩ | ⟨last, rfl, hlast⟩
      · -- the head ends in front of the gap
        refine ⟨front, inner, lead, past ++ (other ++ q :: rest), ?_, hfront, hinner, hruns, hlead,
          rfl⟩
        simp
      · -- the gap stands between the parameters and the colon
        refine ⟨front, inner, returned ++ (other ++ last), after, ?_, hfront, hinner, hruns, ?_, ?_⟩
        · simp [hlast]
        · exact (h.leads_iff 0 returned last).1 hlead
        · simp only [List.count_append, h.count_eq]
    · -- the gap stands among the parameters, with quotes on both sides
      have hquote : ∃ start, params = start ++ [q] := by
        rcases List.eq_nil_or_concat params with rfl | ⟨start, c, rfl⟩
        · obtain ⟨-, hlast⟩ := List.append_inj' hbefore rfl
          rcases hq with rfl | rfl <;> cases hlast
        · rw [List.concat_eq_append, ← List.cons_append, ← List.append_assoc] at hbefore
          obtain ⟨-, hlast⟩ := List.append_inj' hbefore rfl
          exact ⟨start, by rw [hlast, List.concat_eq_append]⟩
      obtain ⟨start, rfl⟩ := hquote
      have hnext : ∃ more, last = q :: more := by
        cases last with
        | nil =>
          obtain ⟨rfl, -⟩ := List.cons.inj hlast
          rcases hq with hq | hq <;> cases hq
        | cons c more =>
          obtain ⟨rfl, -⟩ := List.cons.inj hlast
          exact ⟨more, rfl⟩
      obtain ⟨more, rfl⟩ := hnext
      refine ⟨front, start ++ [q] ++ (other ++ q :: more), lead, after, ?_, hfront, ?_, ?_, hlead,
        ?_⟩
      · simp [hlast]
      · rwa [closes_splice hopen.2 hclose.2, ← closes_splice hopen.1 hclose.1]
      · have hsame := h.runsIntoDeclaration_eq hq ('(' :: start) more
        have hinner : ∀ gap, '(' :: (start ++ [q] ++ (gap ++ q :: more)) =
            '(' :: start ++ q :: (gap ++ q :: more) := by
          simp
        rw [hinner, ← hsame, ← hinner, hruns]
      · simp only [List.count_append, h.count_eq]
  · rw [Text.size_append] at hfront
    omega

theorem Gaps.functionIn?_eq (h : Gaps gap other) (hq : q = '"' ∨ q = '\'') (before rest : List Char)
    {line : List Char} (hline : Text.size line ≤ Text.size before) :
    functionIn? (before ++ q :: (gap ++ q :: rest)) line =
      functionIn? (before ++ q :: (other ++ q :: rest)) line := by
  have hopening : ∀ m, defHead.matchHead? line = some m →
      m.whole.stop.offset - 1 < Text.size (before ++ [q]) := by
    intro m hmatch
    have hstop := Pattern.stop_le_size hmatch
    have hpos := q.utf8Size_pos
    rw [Text.size_append, Text.size_cons, Text.size_nil]
    omega
  refine Option.ext fun f => ?_
  rw [functionIn?_eq_some_iff, functionIn?_eq_some_iff]
  constructor
  · rintro ⟨m, hmatch, hname, hends⟩
    exact ⟨m, hmatch, hname, h.headEnds hq (hopening m hmatch) hends⟩
  · rintro ⟨m, hmatch, hname, hends⟩
    exact ⟨m, hmatch, hname, h.symm.headEnds hq (hopening m hmatch) hends⟩

end Python

end CodeSurvey
