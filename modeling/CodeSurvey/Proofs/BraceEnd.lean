import CodeSurvey.Proofs.BraceSpan
import CodeSurvey.Proofs.Search
import CodeSurvey.Proofs.Span

/-!
# Where a function in braces ends

From the line of a declaration on the walk looks for an opening brace, and from the first one on for
the brace that closes it. On the way to the first one it comes to an end on a line behind which no
parenthesis is open and nothing goes on with the signature. So for any lines whatever there are
three outcomes: a body that closes, a body that never does, or a declaration without a body.
-/
namespace CodeSurvey

namespace Text

/-- A cut is made at the first place where `sub` stands. -/
theorem cut?_eq_some_iff {sub cs before after : List Char} :
    cut? sub cs = some (before, after) ↔ cs = before ++ (sub ++ after) ∧
      ∀ front rest, cs = front ++ (sub ++ rest) → before.length ≤ front.length := by
  induction cs generalizing before with
  | nil =>
    rw [cut?]
    split_ifs with hsub
    · rw [List.isEmpty_iff] at hsub
      subst hsub
      constructor
      · rintro ⟨⟩
        simp
      · rintro ⟨hnil, -⟩
        obtain ⟨rfl, rfl⟩ := List.append_eq_nil_iff.1 hnil.symm
        rfl
    · rw [false_iff]
      rintro ⟨hnil, -⟩
      exact hsub (by simp_all)
  | cons c cs ih =>
    rw [cut?]
    split_ifs with hsub
    · obtain ⟨rest, hrest⟩ := List.isPrefixOf_iff_prefix.1 hsub
      rw [← hrest, List.drop_left, Option.some_inj, Prod.mk.injEq]
      constructor
      · rintro ⟨rfl, rfl⟩
        exact ⟨rfl, by simp⟩
      · rintro ⟨hcut, hfirst⟩
        have hbefore : before = [] := by simpa using hfirst [] rest rfl
        subst hbefore
        exact ⟨rfl, List.append_cancel_left hcut⟩
    · have hfront : ∀ front rest, c :: cs = front ++ (sub ++ rest) →
          ∃ more, front = c :: more ∧ cs = more ++ (sub ++ rest) := by
        intro front rest hcut
        cases front with
        | nil => exact absurd (List.isPrefixOf_iff_prefix.2 ⟨rest, hcut.symm⟩) hsub
        | cons d more =>
          obtain ⟨rfl, hmore⟩ := List.cons.inj hcut
          exact ⟨more, rfl, hmore⟩
      rw [Option.map_eq_some_iff]
      constructor
      · rintro ⟨⟨part, rest⟩, hcut, heq⟩
        obtain ⟨rfl, rfl⟩ := Prod.mk.inj heq
        obtain ⟨rfl, hfirst⟩ := ih.1 hcut
        refine ⟨rfl, ?_⟩
        intro front rest hcut
        obtain ⟨more, rfl, hmore⟩ := hfront front rest hcut
        simpa using hfirst more rest hmore
      · rintro ⟨hcut, hfirst⟩
        obtain ⟨more, rfl, hmore⟩ := hfront before after hcut
        refine ⟨(more, after), ih.2 ⟨hmore, ?_⟩, rfl⟩
        intro front rest hcut
        simpa using hfirst (c :: front) rest (by rw [hcut]; rfl)

theorem trim_eq_nil_iff {cs : List Char} : trim cs = [] ↔ isBlankLine cs = true := by
  rw [isBlankLine, List.all_eq_true, ← List.dropWhile_eq_nil_iff, trim, trimStart]
  constructor
  · intro h
    cases hrest : cs.dropWhile isBlank with
    | nil => rfl
    | cons c rest =>
      have hc : isBlank c = false := by
        have hhead := List.head?_dropWhile_not isBlank cs
        rwa [hrest] at hhead
      rw [hrest, trimEnd_cons hc] at h
      cases h
  · intro h
    rw [h]
    rfl

theorem trimEnd_append {token : List Char} (h : ∀ c ∈ token, isBlank c = false) (cs : List Char) :
    trimEnd (token ++ cs) = token ++ trimEnd cs := by
  induction token with
  | nil => rfl
  | cons c token ih =>
    obtain ⟨hc, htoken⟩ := List.forall_mem_cons.1 h
    rw [List.cons_append, trimEnd_cons hc, ih htoken, List.cons_append]

/-- Trimmed, a line starts with a token just if only white space stands in front of the token on
it. -/
theorem prefix_trim_iff {token line : List Char} (hne : token ≠ [])
    (h : ∀ c ∈ token, isBlank c = false) :
    token <+: trim line ↔ ∃ lead more, line = lead ++ (token ++ more) ∧
    ∀ c ∈ lead, isBlank c = true := by
  constructor
  · rintro ⟨rest, hrest⟩
    have hprefix : token <+: trimStart line := by
      refine List.IsPrefix.trans ⟨rest, hrest⟩ ?_
      rw [trim, trimEnd, dropEndWhile]
      exact List.reverse_suffix.1 (by simpa using List.dropWhile_suffix isBlank)
    obtain ⟨more, hmore⟩ := hprefix
    refine ⟨line.takeWhile isBlank, more, ?_, fun c hc => List.mem_takeWhile_imp hc⟩
    rw [hmore]
    exact List.takeWhile_append_dropWhile.symm
  · rintro ⟨lead, more, rfl, hlead⟩
    refine ⟨trimEnd more, ?_⟩
    cases token with
    | nil => exact absurd rfl hne
    | cons c token =>
      have hstart : (c :: token ++ more).dropWhile isBlank = c :: token ++ more :=
        List.dropWhile_cons_of_neg (by simp [h c])
      rw [trim, trimStart, List.dropWhile_append_of_pos hlead, hstart, trimEnd_append h]

end Text

namespace LineSpan

variable {lines : List (List Char)} {line : List Char} {start i j k e : Nat}

/-! ### Lines that end a declaration -/

/-- Something stands behind the first arrow on the line. -/
def ArrowBody (line : List Char) : Prop :=
  ∃ before after, line = before ++ (['=', '>'] ++ after) ∧
    (∀ front rest, line = front ++ (['=', '>'] ++ rest) → before.length ≤ front.length) ∧
    Text.isBlankLine after = false

theorem hasArrowBody_iff : hasArrowBody line = true ↔ ArrowBody line := by
  rw [hasArrowBody, ArrowBody]
  constructor
  · intro h
    cases hcut : Text.cut? ['=', '>'] line with
    | none => simp [hcut] at h
    | some parts =>
      obtain ⟨hline, hfirst⟩ := Text.cut?_eq_some_iff.1 hcut
      exact ⟨parts.1, parts.2, hline, hfirst, by simpa [hcut] using h⟩
  · rintro ⟨before, after, hline, hfirst, hblank⟩
    rw [Text.cut?_eq_some_iff.2 ⟨hline, hfirst⟩]
    simp [hblank]

/-- The next line that is not blank starts with what may stand between a signature and its body. -/
def GoesOn (rest : List (List Char)) : Prop :=
  ∃ line, FirstWith (fun l => Text.isBlankLine l = false) rest line ∧ ∃ token ∈ continuations,
    ∃ lead more, line = lead ++ (token ++ more) ∧ ∀ c ∈ lead, Text.isBlank c = true

theorem continuations_nonblank :
    ∀ token ∈ continuations, token ≠ [] ∧ ∀ c ∈ token, Text.isBlank c = false := by
  have hall : (continuations.all fun token => !token.isEmpty &&
      token.all fun c => !Text.isBlank c) = true := by
    decide +kernel
  simpa using hall

theorem continuesSignature_iff {rest : List (List Char)} :
    continuesSignature rest = true ↔ GoesOn rest := by
  have hblank : ∀ l, ((!·.isEmpty) ∘ Text.trim) l = true ↔ Text.isBlankLine l = false := by
    intro l
    rw [← Bool.not_eq_true, ← Text.trim_eq_nil_iff]
    simp
  have htoken : ∀ line, continuations.any (·.isPrefixOf (Text.trim line)) = true ↔
      ∃ token ∈ continuations,
      ∃ lead more, line = lead ++ (token ++ more) ∧ ∀ c ∈ lead, Text.isBlank c = true := by
    intro line
    rw [List.any_eq_true]
    refine exists_congr fun token => and_congr_right fun hmem => ?_
    obtain ⟨hne, hnonblank⟩ := continuations_nonblank token hmem
    rw [List.isPrefixOf_iff_prefix, Text.prefix_trim_iff hne hnonblank]
  rw [continuesSignature, List.find?_map]
  constructor
  · intro h
    cases hfirst : rest.find? ((!·.isEmpty) ∘ Text.trim) with
    | none =>
      rw [hfirst] at h
      exact absurd h Bool.false_ne_true
    | some line =>
      rw [hfirst] at h
      exact ⟨line, (find?_eq_some_iff_firstWith hblank).1 hfirst, (htoken line).1 h⟩
  · rintro ⟨line, hfirst, hline⟩
    rw [(find?_eq_some_iff_firstWith hblank).2 hfirst]
    exact (htoken line).2 hline

/-- A declaration on line `start` comes to an end on line `j`, unless a body has been opened by
then. -/
def Stops (lines : List (List Char)) (start j : Nat) : Prop :=
  parensThrough lines start j ≤ 0 ∧ ∃ line ∈ lines[j]?, ArrowBody line ∨
  ¬GoesOn (lines.drop (j + 1))

/-! ### The brace that closes a body -/

variable {ps inner after : List (Nat × Char)} {depth : Nat}

/-- The characters of lines, each with the number of its line; the first line has number `j`. -/
def places (j : Nat) : List (List Char) → List (Nat × Char)
  | [] => []
  | line :: rest => line.map (Prod.mk j) ++ places (j + 1) rest

/-- The characters from the first opening brace on, with the numbers of their lines. -/
def fromBrace (lines : List (List Char)) (start : Nat) : List (Nat × Char) :=
  (places start (lines.drop start)).dropWhile fun p => p.2 != '\x7b'

/-- Opening braces less closing ones. -/
def braces (ps : List (Nat × Char)) : Int :=
  excess '\x7b' '\x7d' (ps.map Prod.snd)

/-- The count of braces first comes back to zero on line `e`. -/
def ClosesOn (ps : List (Nat × Char)) (e : Nat) : Prop :=
  ∃ inner rest, ps = inner ++ (e, '\x7d') :: rest ∧ braces (inner ++ [(e, '\x7d')]) = 0 ∧
    ∀ part, part <+: inner → part ≠ [] → braces part ≠ 0

def NeverCloses (ps : List (Nat × Char)) : Prop :=
  ∀ part, part <+: ps → part ≠ [] → braces part ≠ 0

theorem ClosesOn.mem (h : ClosesOn ps e) : (e, '\x7d') ∈ ps := by
  obtain ⟨inner, rest, rfl, -⟩ := h
  exact List.mem_append_right inner List.mem_cons_self

/-- The line of the brace that closes the last of `depth` open ones. -/
def closingLine? : Nat → List (Nat × Char) → Option Nat
  | _, [] => none
  | depth, p :: rest =>
    if p.2 = '\x7b' then closingLine? (depth + 1) rest
    else if p.2 = '\x7d' then if depth ≤ 1 then some p.1 else closingLine? (depth - 1) rest
    else closingLine? depth rest

/-- What a character adds to the count of braces. -/
def weight (p : Nat × Char) : Int :=
  if p.2 = '\x7b' then 1 else if p.2 = '\x7d' then -1 else 0

theorem braces_cons (p : Nat × Char) (ps : List (Nat × Char)) :
    braces (p :: ps) = weight p + braces ps := by
  rw [braces, List.map_cons, excess_cons (by decide)]
  rfl

theorem braces_open (k : Nat) (ps : List (Nat × Char)) :
    braces ((k, '\x7b') :: ps) = 1 + braces ps :=
  braces_cons (k, '\x7b') ps

/-- With `depth` braces open in front, the last of them is closed on line `e`. -/
def ReturnsOn (depth : Int) (ps : List (Nat × Char)) (e : Nat) : Prop :=
  ∃ inner rest, ps = inner ++ (e, '\x7d') :: rest ∧ depth + braces inner = 1 ∧
    ∀ part, part <+: inner → depth + braces part ≠ 0

/-- With `depth` braces open in front, the count never comes to zero. -/
def StaysOpen (depth : Int) (ps : List (Nat × Char)) : Prop :=
  ∀ part, part <+: ps → depth + braces part ≠ 0

variable {d : Int} {p : Nat × Char}

theorem staysOpen_nil : StaysOpen d [] ↔ d ≠ 0 := by
  simp [StaysOpen, braces]

theorem staysOpen_cons : StaysOpen d (p :: ps) ↔ d ≠ 0 ∧ StaysOpen (d + weight p) ps := by
  constructor
  · intro h
    refine ⟨by simpa [braces] using h [] List.nil_prefix, ?_⟩
    intro part hpart
    have hnext := h (p :: part) (List.cons_prefix_cons.2 ⟨rfl, hpart⟩)
    rw [braces_cons] at hnext
    omega
  · rintro ⟨hd, h⟩ part hpart
    rcases List.prefix_cons_iff.1 hpart with rfl | ⟨rest, rfl, hrest⟩
    · simpa [braces] using hd
    · have hnext := h rest hrest
      rw [braces_cons]
      omega

theorem returnsOn_cons (hd : d ≠ 0) (hnext : d + weight p ≠ 0) :
    ReturnsOn d (p :: ps) e ↔ ReturnsOn (d + weight p) ps e := by
  constructor
  · rintro ⟨inner, rest, hcut, hbraces, hopen⟩
    cases inner with
    | nil =>
      obtain ⟨rfl, -⟩ := List.cons.inj hcut
      simp only [braces, List.map_nil, excess_nil] at hbraces
      have hweight : weight (e, '\x7d') = -1 := rfl
      omega
    | cons q inner =>
      obtain ⟨rfl, rfl⟩ := List.cons.inj hcut
      rw [braces_cons] at hbraces
      exact ⟨inner, rest, rfl, by omega, (staysOpen_cons.1 hopen).2⟩
  · rintro ⟨inner, rest, rfl, hbraces, hopen⟩
    refine ⟨p :: inner, rest, rfl, ?_, staysOpen_cons.2 ⟨hd, hopen⟩⟩
    rw [braces_cons]
    omega

theorem returnsOn_close (hclose : p.2 = '\x7d') : ReturnsOn 1 (p :: ps) e ↔ p.1 = e := by
  have hweight : weight p = -1 := by rw [weight, hclose]; rfl
  constructor
  · rintro ⟨inner, rest, hcut, -, hopen⟩
    cases inner with
    | nil => rw [(List.cons.inj hcut).1]
    | cons q inner =>
      obtain ⟨rfl, -⟩ := List.cons.inj hcut
      have hzero := (staysOpen_cons.1 hopen).2 [] List.nil_prefix
      simp [braces, hweight] at hzero
  · rintro rfl
    refine ⟨[], ps, ?_, rfl, staysOpen_nil.2 (by decide)⟩
    rw [← hclose]
    rfl

theorem closingLine?_eq_none_iff (h : 0 < depth) :
    closingLine? depth ps = none ↔ StaysOpen depth ps := by
  induction ps generalizing depth with
  | nil =>
    rw [closingLine?, staysOpen_nil]
    exact iff_of_true rfl (by omega)
  | cons p ps ih =>
    rw [closingLine?, staysOpen_cons, weight, and_iff_right (by omega)]
    split_ifs with hopen hclose hlast
    · exact ih (by omega)
    · rw [false_iff]
      intro hrest
      have hzero := hrest [] List.nil_prefix
      simp only [braces, List.map_nil, excess_nil] at hzero
      omega
    · have hdepth : (depth : Int) + -1 = (depth - 1 : Nat) := by omega
      rw [ih (by omega), hdepth]
    · rw [ih h, Int.add_zero]

theorem closingLine?_eq_some_iff (h : 0 < depth) :
    closingLine? depth ps = some e ↔ ReturnsOn depth ps e := by
  induction ps generalizing depth with
  | nil => simp [closingLine?, ReturnsOn]
  | cons p ps ih =>
    rw [closingLine?]
    split_ifs with hopen hclose hlast
    · have hweight : weight p = 1 := if_pos hopen
      rw [ih (by omega), returnsOn_cons (by omega) (by omega), hweight]
      rfl
    · obtain rfl : depth = 1 := by omega
      rw [Option.some_inj]
      exact (returnsOn_close hclose).symm
    · have hweight : weight p = -1 := by rw [weight, if_neg hopen, if_pos hclose]
      have hdepth : (depth : Int) + -1 = (depth - 1 : Nat) := by omega
      rw [ih (by omega), returnsOn_cons (by omega) (by omega), hweight, hdepth]
    · have hweight : weight p = 0 := by rw [weight, if_neg hopen, if_neg hclose]
      rw [ih h, returnsOn_cons (by omega) (by omega), hweight, Int.add_zero]

theorem closesOn_cons : ClosesOn ((k, '\x7b') :: ps) e ↔ ReturnsOn 1 ps e := by
  have hclose : ∀ qs, braces (qs ++ [(e, '\x7d')]) = braces qs - 1 := by
    intro qs
    rw [braces, List.map_append, excess_append]
    rfl
  constructor
  · rintro ⟨inner, rest, hcut, hzero, hpos⟩
    cases inner with
    | nil => simp at hcut
    | cons q inner =>
      obtain ⟨rfl, rfl⟩ := List.cons.inj hcut
      rw [hclose, braces_open] at hzero
      refine ⟨inner, rest, rfl, by omega, ?_⟩
      intro part hpart
      rw [← braces_open k]
      exact hpos _ (List.cons_prefix_cons.2 ⟨rfl, hpart⟩) (List.cons_ne_nil _ _)
  · rintro ⟨inner, rest, rfl, hone, hpos⟩
    refine ⟨(k, '\x7b') :: inner, rest, rfl, ?_, ?_⟩
    · rw [hclose, braces_open]
      omega
    · intro part hpart hne
      rcases List.prefix_cons_iff.1 hpart with rfl | ⟨part, rfl, hinner⟩
      · exact absurd rfl hne
      · rw [braces_open]
        exact hpos part hinner

theorem neverCloses_cons : NeverCloses ((k, '\x7b') :: ps) ↔ StaysOpen 1 ps := by
  constructor
  · intro h part hpart
    rw [← braces_open k]
    exact h _ (List.cons_prefix_cons.2 ⟨rfl, hpart⟩) (List.cons_ne_nil _ _)
  · intro h part hpart hne
    rcases List.prefix_cons_iff.1 hpart with rfl | ⟨part, rfl, hinner⟩
    · exact absurd rfl hne
    · rw [braces_open]
      exact h part hinner

/-! ### The walk -/

open BraceWalk

variable {rest : List (List Char)} {front tail : List Char}

/-- No brace has been opened yet. -/
def BraceWalk.unopened (parens : Int) : BraceWalk :=
  ⟨parens, 0, false, false⟩

theorem foldl_step_unopened {cs : List Char} (h : '\x7b' ∉ cs) (parens : Int) :
    cs.foldl step (unopened parens) = unopened (parens + excess '(' ')' cs) := by
  induction cs generalizing parens with
  | nil => rw [excess_nil, Int.add_zero]; rfl
  | cons c cs ih =>
    rw [List.mem_cons, not_or] at h
    have hstep : (unopened parens).step c =
        unopened (parens + if c = '(' then 1 else if c = ')' then -1 else 0) := by
      split_ifs with hleft hright
      · rw [hleft]
        rfl
      · rw [hright]
        rfl
      · rw [step_other hleft hright (Ne.symm h.1) fun _ => rfl, Int.add_zero]
    rw [List.foldl_cons, hstep, ih h.2, excess_cons (by decide), Int.add_assoc]

/-- Inside a body the rest of a line is searched for the closing brace, and the lines below after
it. -/
theorem endBehind?_inside
    (hrest : ∀ parens depth, braceEnd? (inside parens depth) (j + 1) rest =
      closingLine? (depth + 1) (places (j + 1) rest))
    (cs seen : List Char) (parens : Int) (depth : Nat) :
    endBehind? (cs.foldl step (inside parens depth)) seen j rest =
      closingLine? (depth + 1) (cs.map (Prod.mk j) ++ places (j + 1) rest) := by
  induction cs generalizing parens depth with
  | nil => exact hrest parens depth
  | cons c cs ih =>
    rw [List.foldl_cons, List.map_cons, List.cons_append, closingLine?]
    dsimp only
    split_ifs with hopen hclose hlast
    · rw [hopen]
      exact ih parens (depth + 1)
    · obtain rfl : depth = 0 := by omega
      have hclosed : ((inside parens 0).step c).closed = true := by rw [hclose]; rfl
      rw [foldl_step_of_closed hclosed, endBehind?, if_pos hclosed]
    · obtain ⟨depth, rfl⟩ : ∃ n, depth = n + 1 := ⟨depth - 1, by omega⟩
      rw [hclose]
      exact ih parens depth
    · by_cases hleft : c = '('
      · rw [hleft]
        exact ih (parens + 1) depth
      · by_cases hright : c = ')'
        · rw [hright]
          exact ih (parens - 1) depth
        · rw [step_other hleft hright hopen fun h => absurd h hclose]
          exact ih parens depth

theorem braceEnd?_inside (parens : Int) (depth j : Nat) (rest : List (List Char)) :
    braceEnd? (inside parens depth) j rest = closingLine? (depth + 1) (places j rest) := by
  induction rest generalizing parens depth j with
  | nil => rfl
  | cons line rest ih =>
    exact endBehind?_inside (fun parens depth => ih parens depth (j + 1)) line line parens depth

/-- A line with an opening brace opens the body. -/
theorem braceEnd?_opens (h : '\x7b' ∉ front) (parens : Int) (j : Nat) (rest : List (List Char)) :
    braceEnd? (unopened parens) j ((front ++ '\x7b' :: tail) :: rest) =
      closingLine? 1 (tail.map (Prod.mk j) ++ places (j + 1) rest) := by
  have hend := endBehind?_inside (fun parens depth => braceEnd?_inside parens depth (j + 1) rest)
    tail
    (front ++ '\x7b' :: tail) (parens + excess '(' ')' front) 0
  rw [← hend, inside]
  have hline : braceEnd? (unopened parens) j ((front ++ '\x7b' :: tail) :: rest) =
      endBehind? ((front ++ '\x7b' :: tail).foldl step (unopened parens))
        (front ++ '\x7b' :: tail) j rest := rfl
  rw [hline, List.foldl_append, foldl_step_unopened h, List.foldl_cons]
  rfl

theorem braceEnd?_unopened (h : '\x7b' ∉ line) (parens : Int) (j : Nat) (rest : List (List Char)) :
    braceEnd? (unopened parens) j (line :: rest) =
      endBehind? (unopened (parens + excess '(' ')' line)) line j rest := by
  rw [← foldl_step_unopened h]
  rfl

theorem isOpen_unopened_iff {parens : Int} :
    ((unopened parens).opened || 0 < (unopened parens).parens) = true ↔ 0 < parens := by
  rw [Bool.or_eq_true, decide_eq_true_eq]
  exact or_iff_right Bool.false_ne_true

theorem ends_iff :
    (hasArrowBody line || !continuesSignature rest) = true ↔ ArrowBody line ∨ ¬GoesOn rest := by
  rw [Bool.or_eq_true, hasArrowBody_iff, Bool.not_eq_true', ← Bool.not_eq_true,
    continuesSignature_iff]

theorem braceEnd?_stop {parens : Int} (h : '\x7b' ∉ line)
    (hparens : parens + excess '(' ')' line ≤ 0) (hends : ArrowBody line ∨ ¬GoesOn rest) (j : Nat) :
      braceEnd? (unopened parens) j (line :: rest) = some j := by
  rw [braceEnd?_unopened h, endBehind?, if_neg (by simp [unopened]), if_neg,
    if_pos (ends_iff.2 hends)]
  rw [isOpen_unopened_iff]
  omega

theorem braceEnd?_pass {parens : Int} (h : '\x7b' ∉ line)
    (hgo : ¬(parens + excess '(' ')' line ≤ 0 ∧ (ArrowBody line ∨ ¬GoesOn rest))) (j : Nat) :
    braceEnd? (unopened parens) j (line :: rest) =
      braceEnd? (unopened (parens + excess '(' ')' line)) (j + 1) rest := by
  rw [braceEnd?_unopened h, endBehind?, if_neg (by simp [unopened])]
  by_cases hparens : parens + excess '(' ')' line ≤ 0
  · rw [if_neg, if_neg fun hends => hgo ⟨hparens, ends_iff.1 hends⟩]
    rw [isOpen_unopened_iff]
    omega
  · rw [if_pos (isOpen_unopened_iff.2 (Int.not_le.1 hparens))]

/-- Line `j` is the first that a declaration without a body may end on, or else the last line of
all, and no brace has been opened by its end. -/
structure Bodiless (lines : List (List Char)) (start j : Nat) : Prop where
  start_le : start ≤ j
  lt_length : j < lines.length
  no_brace : ∀ line ∈ between lines start (j + 1), '\x7b' ∉ line
  passes : ∀ i, start ≤ i → i < j → ¬Stops lines start i
  ends : Stops lines start j ∨ j + 1 = lines.length

/-- The first opening brace stands on line `k`, and no line above that ends the declaration. -/
structure BodyOpens (lines : List (List Char)) (start k : Nat) : Prop where
  first : (fromBrace lines start).head? = some (k, '\x7b')
  passes : ∀ j, start ≤ j → j < k → ¬Stops lines start j

/-- The walk comes to every line above which there is no brace and nothing that ends the
declaration. -/
theorem braceEnd?_reach (hle : start ≤ k) (hlength : k ≤ lines.length)
    (hbrace : ∀ line ∈ between lines start k, '\x7b' ∉ line)
    (hpass : ∀ j, start ≤ j → j < k → ¬Stops lines start j) :
    braceEnd? .start start (lines.drop start) =
      braceEnd? (unopened (excess '(' ')' (between lines start k).flatten)) k (lines.drop k) := by
  induction k, hle using Nat.le_induction with
  | base =>
    rw [between, Nat.sub_self]
    rfl
  | succ k hle ih =>
    have hline : lines[k]? = some lines[k] := List.getElem?_eq_getElem hlength
    have hthrough := parensThrough_succ hline hle
    have hnone : '\x7b' ∉ lines[k] := hbrace _ (mem_between.2 ⟨k, hle, Nat.lt_succ_self k, hline⟩)
    rw [ih (Nat.le_of_lt hlength), drop_eq_cons hline, braceEnd?_pass hnone, ← hthrough]
    · rfl
    · rw [← hthrough]
      rintro ⟨hparens, hends⟩
      exact hpass k hle (Nat.lt_succ_self k) ⟨hparens, _, hline, hends⟩
    · exact fun line hmem => hbrace line (between_subset (Nat.le_succ k) hmem)
    · exact fun j hstart hj => hpass j hstart (by omega)

theorem braceEnd?_of_bodiless (h : Bodiless lines start j) :
    braceEnd? .start start (lines.drop start) = some j := by
  have hlength := h.lt_length
  have hline : lines[j]? = some lines[j] := List.getElem?_eq_getElem hlength
  have hnone : '\x7b' ∉ lines[j] := h.no_brace _
    (mem_between.2 ⟨j, h.start_le, Nat.lt_succ_self j, hline⟩)
  have hbrace : ∀ line ∈ between lines start j, '\x7b' ∉ line := fun line hmem =>
    h.no_brace line (between_subset (Nat.le_succ j) hmem)
  rw [braceEnd?_reach h.start_le (Nat.le_of_lt hlength) hbrace h.passes, drop_eq_cons hline]
  by_cases hstops : Stops lines start j
  · obtain ⟨hparens, line, hmem, hends⟩ := hstops
    obtain rfl := Option.mem_unique hmem hline
    rw [parensThrough_succ hline h.start_le] at hparens
    exact braceEnd?_stop hnone hparens hends j
  · have hend := h.ends.resolve_left hstops
    rw [braceEnd?_pass hnone, hend, List.drop_length]
    · exact congrArg some (by omega)
    · rw [← parensThrough_succ hline h.start_le]
      exact fun hparens => hstops ⟨hparens.1, _, hline, hparens.2⟩

/-! ### The first opening brace -/

theorem places_append (j : Nat) (above below : List (List Char)) :
    places j (above ++ below) = places j above ++ places (j + above.length) below := by
  induction above generalizing j with
  | nil => rfl
  | cons line above ih =>
    rw [List.cons_append, places, ih, places, List.append_assoc, List.length_cons, Nat.add_assoc,
      Nat.add_comm 1]

theorem mem_places :
    p ∈ places j rest ↔ ∃ n line, rest[n]? = some line ∧ p.1 = j + n ∧ p.2 ∈ line := by
  induction rest generalizing j with
  | nil => simp [places]
  | cons line rest ih =>
    rw [places, List.mem_append, ih, List.mem_map]
    constructor
    · rintro (⟨c, hc, rfl⟩ | ⟨n, l, hl, hp, hmem⟩)
      · exact ⟨0, line, rfl, rfl, hc⟩
      · exact ⟨n + 1, l, hl, by omega, hmem⟩
    · rintro ⟨n, l, hl, hp, hmem⟩
      cases n with
      | zero =>
        obtain rfl := Option.some.inj hl
        exact .inl ⟨p.2, hmem, Prod.ext hp.symm rfl⟩
      | succ n => exact .inr ⟨n, l, hl, by omega, hmem⟩

theorem fromBrace_eq_nil (h : ∀ line ∈ lines.drop start, '\x7b' ∉ line) :
    fromBrace lines start = [] := by
  rw [fromBrace, List.dropWhile_eq_nil_iff]
  intro p hp
  obtain ⟨n, line, hline, -, hmem⟩ := mem_places.1 hp
  simpa using ne_of_mem_of_not_mem hmem (h line (List.mem_of_getElem? hline))

theorem fromBrace_eq_cons (hk : start ≤ k) (hbrace : ∀ line ∈ between lines start k, '\x7b' ∉ line)
    (hline : lines[k]? = some (front ++ '\x7b' :: tail)) (hfront : '\x7b' ∉ front) :
    fromBrace lines start =
      (k, '\x7b') :: (tail.map (Prod.mk k) ++ places (k + 1) (lines.drop (k + 1))) := by
  have hlength : start + (between lines start k).length = k := by
    rw [length_between (Nat.le_of_lt (List.getElem?_eq_some_iff.1 hline).1)]
    omega
  rw [fromBrace, ← between_append_drop hk, drop_eq_cons hline, places_append, hlength, places,
    List.map_append, List.append_assoc, List.dropWhile_append_of_pos, List.dropWhile_append_of_pos,
    List.map_cons, List.cons_append, List.dropWhile_cons_of_neg (by simp)]
  · intro p hp
    obtain ⟨c, hc, rfl⟩ := List.mem_map.1 hp
    simpa using ne_of_mem_of_not_mem hc hfront
  · intro p hp
    obtain ⟨n, line, hget, -, hmem⟩ := mem_places.1 hp
    simpa using ne_of_mem_of_not_mem hmem (hbrace line (List.mem_of_getElem? hget))

/-- Either no line has an opening brace, or there is a first one that has. -/
theorem exists_first_brace (lines : List (List Char)) (start : Nat) :
    (∀ line ∈ lines.drop start, '\x7b' ∉ line) ∨ ∃ k front tail, start ≤ k ∧
      (∀ line ∈ between lines start k, '\x7b' ∉ line) ∧ lines[k]? = some (front ++ '\x7b' :: tail) ∧
        '\x7b' ∉ front := by
  classical
  by_cases h : ∃ k, start ≤ k ∧ ∃ line ∈ lines[k]?, '\x7b' ∈ line
  · obtain ⟨hstart, line, hline, hmem⟩ := Nat.find_spec h
    obtain ⟨front, tail, rfl, hfront⟩ := List.eq_append_cons_of_mem hmem
    refine .inr ⟨Nat.find h, front, tail, hstart, ?_, hline, hfront⟩
    intro line hmem hbrace
    obtain ⟨m, hm, hlt, hget⟩ := mem_between.1 hmem
    exact Nat.find_min h hlt ⟨hm, line, hget, hbrace⟩
  · refine .inl fun line hmem hbrace => h ?_
    obtain ⟨n, hget⟩ := List.mem_iff_getElem?.1 hmem
    rw [List.getElem?_drop] at hget
    exact ⟨start + n, by omega, line, hget, hbrace⟩

theorem braceEnd?_of_bodyOpens (h : BodyOpens lines start k) :
    ∃ after, fromBrace lines start = (k, '\x7b') :: after ∧
      braceEnd? .start start (lines.drop start) = closingLine? 1 after := by
  have hfirst := h.first
  rcases exists_first_brace lines start with hnone | ⟨m, front, tail, hstart, hbrace, hline, hfront⟩
  · rw [fromBrace_eq_nil hnone] at hfirst
    cases hfirst
  · have hcut := fromBrace_eq_cons hstart hbrace hline hfront
    rw [hcut, List.head?_cons, Option.some_inj, Prod.mk.injEq] at hfirst
    obtain ⟨rfl, -⟩ := hfirst
    refine ⟨_, hcut, ?_⟩
    rw [braceEnd?_reach hstart (Nat.le_of_lt (List.getElem?_eq_some_iff.1 hline).1) hbrace h.passes,
      drop_eq_cons hline, braceEnd?_opens hfront]

/-- A line that ends a declaration, and above which there is no brace, makes it one without a
body. -/
theorem exists_bodiless (hbrace : ∀ line ∈ between lines start k, '\x7b' ∉ line)
    (h : ∃ j, start ≤ j ∧ j < k ∧ Stops lines start j) : ∃ j, Bodiless lines start j := by
  classical
  obtain ⟨hstart, hlt, hstops⟩ := Nat.find_spec h
  obtain ⟨line, hget, -⟩ := hstops.2
  refine ⟨Nat.find h, hstart, (List.getElem?_eq_some_iff.1 hget).1, ?_, ?_, .inl hstops⟩
  · exact fun line hmem => hbrace line (between_subset hlt hmem)
  · intro i hi hbefore hstop
    exact Nat.find_min h hbefore ⟨hi, by omega, hstop⟩

theorem bodyOpens_or_bodiless (h : start < lines.length) :
    (∃ k, BodyOpens lines start k) ∨ ∃ j, Bodiless lines start j := by
  rcases exists_first_brace lines start with hnone | ⟨k, front, tail, hstart, hbrace, hline, hfront⟩
  · have hbrace : ∀ line ∈ between lines start lines.length, '\x7b' ∉ line := fun line hmem =>
      hnone line (List.mem_of_mem_take hmem)
    by_cases hstops : ∃ j, start ≤ j ∧ j < lines.length ∧ Stops lines start j
    · exact .inr (exists_bodiless hbrace hstops)
    · have hlast : lines.length - 1 + 1 = lines.length := by omega
      refine .inr ⟨lines.length - 1, by omega, by omega, by rwa [hlast], ?_, .inr hlast⟩
      exact fun i hi hlt hstop => hstops ⟨i, hi, by omega, hstop⟩
  · by_cases hstops : ∃ j, start ≤ j ∧ j < k ∧ Stops lines start j
    · exact .inr (exists_bodiless hbrace hstops)
    · refine .inl ⟨k, ?_, fun j hj hlt hstop => hstops ⟨j, hj, hlt, hstop⟩⟩
      rw [fromBrace_eq_cons hstart hbrace hline hfront]
      rfl

/-! ### What the walk finds -/

/-- A place from the first opening brace on is on a line of the text, on that of the brace or below
it. -/
theorem line_of_mem_fromBrace (hp : p ∈ fromBrace lines start) :
    start ≤ p.1 ∧ p.1 < lines.length ∧ ∃ line ∈ between lines start (p.1 + 1), '\x7b' ∈ line := by
  rcases exists_first_brace lines start with hnone | ⟨k, front, tail, hstart, hbrace, hline, hfront⟩
  · rw [fromBrace_eq_nil hnone] at hp
    cases hp
  · have hlength := (List.getElem?_eq_some_iff.1 hline).1
    have hplace : k ≤ p.1 ∧ p.1 < lines.length := by
      rw [fromBrace_eq_cons hstart hbrace hline hfront, List.mem_cons, List.mem_append,
        List.mem_map] at hp
      rcases hp with rfl | ⟨c, -, rfl⟩ | hbelow
      · exact ⟨Nat.le_refl k, hlength⟩
      · exact ⟨Nat.le_refl k, hlength⟩
      · obtain ⟨n, line, hget, hnumber, -⟩ := mem_places.1 hbelow
        rw [List.getElem?_drop, ← hnumber] at hget
        exact ⟨by omega, (List.getElem?_eq_some_iff.1 hget).1⟩
    exact ⟨by omega, hplace.2, _, mem_between.2 ⟨k, hstart, by omega, hline⟩, by simp⟩

theorem byBraces?_eq (h : start < lines.length) :
    byBraces? lines start = (braceEnd? .start start (lines.drop start)).map (⟨start, ·⟩) := by
  rw [byBraces?, drop_eq_cons (List.getElem?_eq_getElem h)]

theorem byBraces?_eq_none_of_le (h : lines.length ≤ start) : byBraces? lines start = none := by
  rw [byBraces?, List.drop_eq_nil_of_le h]

theorem byBraces?_of_bodiless (h : Bodiless lines start e) :
    byBraces? lines start = some ⟨start, e⟩ := by
  rw [byBraces?_eq (Nat.lt_of_le_of_lt h.start_le h.lt_length), braceEnd?_of_bodiless h]
  rfl

theorem BodyOpens.lt_length (h : BodyOpens lines start k) : start < lines.length := by
  obtain ⟨hstart, hlength, -⟩ := line_of_mem_fromBrace (List.mem_of_mem_head? h.first)
  exact Nat.lt_of_le_of_lt hstart hlength

theorem BodyOpens.closesOn_iff (h : BodyOpens lines start k) :
    ClosesOn (fromBrace lines start) e ↔ byBraces? lines start = some ⟨start, e⟩ := by
  obtain ⟨after, hcut, hend⟩ := braceEnd?_of_bodyOpens h
  rw [hcut, closesOn_cons, byBraces?_eq h.lt_length, hend, Option.map_eq_some_iff]
  have hline : closingLine? 1 after = some e ↔ ReturnsOn 1 after e :=
    closingLine?_eq_some_iff Nat.zero_lt_one
  constructor
  · exact fun hreturns => ⟨e, hline.2 hreturns, rfl⟩
  · rintro ⟨_, hcloses, ⟨⟩⟩
    exact hline.1 hcloses

theorem BodyOpens.neverCloses_iff (h : BodyOpens lines start k) :
    NeverCloses (fromBrace lines start) ↔ byBraces? lines start = none := by
  obtain ⟨after, hcut, hend⟩ := braceEnd?_of_bodyOpens h
  rw [hcut, neverCloses_cons, byBraces?_eq h.lt_length, hend, Option.map_eq_none_iff]
  exact (closingLine?_eq_none_iff Nat.zero_lt_one).symm

theorem byBraces?_eq_none_iff : byBraces? lines start = none ↔
    lines.length ≤ start ∨ ∃ k, BodyOpens lines start k ∧ NeverCloses (fromBrace lines start) := by
  constructor
  · intro hnone
    by_cases hlength : start < lines.length
    · rcases bodyOpens_or_bodiless hlength with ⟨k, hopens⟩ | ⟨j, hbodiless⟩
      · exact .inr ⟨k, hopens, hopens.neverCloses_iff.2 hnone⟩
      · rw [byBraces?_of_bodiless hbodiless] at hnone
        cases hnone
    · exact .inl (Nat.not_lt.1 hlength)
  · rintro (hlength | ⟨k, hopens, hnever⟩)
    · exact byBraces?_eq_none_of_le hlength
    · exact hopens.neverCloses_iff.1 hnever

theorem byBraces?_eq_some_iff {span : LineSpan} :
    byBraces? lines start = some span ↔ span.first = start ∧
    ((∃ k, BodyOpens lines start k ∧ ClosesOn (fromBrace lines start) span.last) ∨
      Bodiless lines start span.last) := by
  constructor
  · intro hsome
    have hlength : start < lines.length := by
      by_contra hlength
      rw [byBraces?_eq_none_of_le (Nat.not_lt.1 hlength)] at hsome
      cases hsome
    have hfirst : span.first = start := by
      rw [byBraces?_eq hlength] at hsome
      obtain ⟨e, -, rfl⟩ := Option.map_eq_some_iff.1 hsome
      rfl
    subst hfirst
    refine ⟨rfl, ?_⟩
    rcases bodyOpens_or_bodiless hlength with ⟨k, hopens⟩ | ⟨j, hbodiless⟩
    · exact .inl ⟨k, hopens, hopens.closesOn_iff.2 hsome⟩
    · rw [byBraces?_of_bodiless hbodiless] at hsome
      have hlast : j = span.last := congrArg LineSpan.last (Option.some.inj hsome)
      exact .inr (hlast ▸ hbodiless)
  · rintro ⟨rfl, ⟨k, hopens, hcloses⟩ | hbodiless⟩
    · exact hopens.closesOn_iff.1 hcloses
    · exact byBraces?_of_bodiless hbodiless

/-- For any lines and any start, what the walk gives is told by the braces, the parentheses and the
lines that may go on with a signature alone. There is no span just if the start is past the last
line or a body opens that never closes. Otherwise the span starts where asked and lies inside the
lines; it ends with the brace that closes the body, or it has no brace in it and ends with the first
line that may end a declaration, or the last line. -/
theorem byBraces?_characterised (lines : List (List Char)) (start : Nat) :
    (byBraces? lines start = none ↔
      lines.length ≤ start ∨ ∃ k, BodyOpens lines start k ∧ NeverCloses (fromBrace lines start)) ∧
    ∀ span, byBraces? lines start = some span ↔
      span.first = start ∧ start ≤ span.last ∧ span.last < lines.length ∧
        ((∃ line ∈ between lines start (span.last + 1), '\x7b' ∈ line) ∧
            (∃ k, BodyOpens lines start k ∧ ClosesOn (fromBrace lines start) span.last) ∨
          (∀ line ∈ between lines start (span.last + 1), '\x7b' ∉ line) ∧
            (∀ j, start ≤ j → j < span.last → ¬Stops lines start j) ∧
              (Stops lines start span.last ∨ span.last + 1 = lines.length)) := by
  refine ⟨byBraces?_eq_none_iff, fun span => byBraces?_eq_some_iff.trans
    (and_congr_right fun _ => ?_)⟩
  constructor
  · rintro (⟨k, hopens, hcloses⟩ | h)
    · obtain ⟨hstart, hlength, hbrace⟩ := line_of_mem_fromBrace hcloses.mem
      exact ⟨hstart, hlength, .inl ⟨hbrace, k, hopens, hcloses⟩⟩
    · exact ⟨h.start_le, h.lt_length, .inr ⟨h.no_brace, h.passes, h.ends⟩⟩
  · rintro ⟨hstart, hlength, ⟨-, hbody⟩ | ⟨hbrace, hpass, hends⟩⟩
    · exact .inl hbody
    · exact .inr ⟨hstart, hlength, hbrace, hpass, hends⟩

end LineSpan

end CodeSurvey
