import CodeSurvey.Document
import CodeSurvey.Proofs.Pattern.Scan
import CodeSurvey.Proofs.Text.Word
import Mathlib.Data.List.TakeWhile

/-!
# Attributes of tags

An attribute is written as a name, an equals sign and a value in quotes, with white space around the
sign or without. The patterns that look for the source and for the type of a script match just that.
-/
namespace CodeSurvey.Document

open Pattern

/-! ### Reading an attribute -/

def isQuote (c : Char) : Bool :=
  c == '\'' || c == '"'

def isUnquoted (c : Char) : Bool :=
  c != '"' && c != '\''

/-- What follows a character of the class. -/
def afterChar? (accepts : Char → Bool) : List Char → Option (List Char)
  | [] => none
  | c :: cs => if accepts c then some cs else none

/-- What follows the quote in front of the attribute's value. -/
def openQuote? (name : String) (cs : List Char) : Option (List Char) :=
  (afterFolded? name.toList cs).bind fun rest =>
    (afterChar? (· == '=') (rest.dropWhile Text.isBlank)).bind fun rest =>
      afterChar? isQuote (rest.dropWhile Text.isBlank)

/-- A text that is not empty and ends at a quote, and what follows the quote. -/
def closeQuote? (cs : List Char) : Option (List Char × List Char) :=
  if (cs.takeWhile isUnquoted).isEmpty then none
  else (afterChar? isQuote (cs.dropWhile isUnquoted)).map (cs.takeWhile isUnquoted, ·)

/-- The value of the attribute at the start of a text, and what follows it. -/
def valueAt? (name : String) (cs : List Char) : Option (List Char × List Char) :=
  (openQuote? name cs).bind closeQuote?

/-- What follows `type="module"`. -/
def moduleAt? (cs : List Char) : Option (Unit × List Char) :=
  (openQuote? "type" cs).bind fun rest =>
    (afterFolded? "module".toList rest).bind fun rest => (afterChar? isQuote rest).map ((), ·)

/-- Somewhere the text says `type="module"`. -/
def carriesModule (cs : List Char) : Bool :=
  cs.tails.any fun rest => (moduleAt? rest).isSome

/-- The last source that starts in a text followed by `tail`: what stands in front of it, its value,
and what follows the value. -/
def lastSource? (tail : List Char) : List Char → Option (List Char × List Char × List Char)
  | [] => none
  | c :: cs =>
    match lastSource? tail cs with
    | some (front, found) => some (c :: front, found)
    | none => (valueAt? "src" (c :: (cs ++ tail))).map ([], ·)

/-- The text is the name of an attribute, an equals sign and a quote. -/
def OpensQuote (name : String) (read : List Char) : Prop :=
  ∃ word gap gap' q, Folded name.toList word ∧ (∀ c ∈ gap, Text.isBlank c = true) ∧
    (∀ c ∈ gap', Text.isBlank c = true) ∧ isQuote q = true ∧
    read = word ++ (gap ++ '=' :: (gap' ++ [q]))

variable {accepts : Char → Bool} {name : String} {cs read value rest tail : List Char}
  {s t : Progress} {q : Char}

theorem isUnquoted_eq_not (c : Char) : isUnquoted c = !isQuote c := by
  rw [isUnquoted, isQuote, Bool.not_or, Bool.and_comm]
  rfl

theorem isBlank_of_isQuote (h : isQuote q = true) : Text.isBlank q = false := by
  rcases Bool.or_eq_true_iff.1 h with h | h <;> rw [beq_iff_eq.1 h] <;> rfl

theorem afterChar?_eq_some_iff :
    afterChar? accepts cs = some rest ↔ ∃ c, accepts c = true ∧ cs = c :: rest := by
  cases cs with
  | nil => simp [afterChar?]
  | cons c cs =>
    rw [afterChar?]
    by_cases hc : accepts c = true
    · simp [hc]
    · simp only [hc]
      simp only [Bool.false_eq_true, if_false, reduceCtorEq, false_iff]
      rintro ⟨d, hd, h⟩
      rw [(List.cons.inj h).1] at hc
      exact hc hd

/-- Behind characters of a class a text starts with one that is not of the class. -/
theorem dropWhile_eq_cons_iff {c : Char} :
    cs.dropWhile accepts = c :: rest ↔
      ∃ front, (∀ x ∈ front, accepts x = true) ∧ accepts c = false ∧ cs = front ++ c :: rest := by
  constructor
  · intro h
    refine ⟨cs.takeWhile accepts, fun x hx => List.mem_takeWhile_imp hx, ?_, ?_⟩
    · have hhead := List.head?_dropWhile_not accepts cs
      rw [h] at hhead
      simpa using hhead
    · rw [← h, List.takeWhile_append_dropWhile]
  · rintro ⟨front, hfront, hc, rfl⟩
    rw [List.dropWhile_append_of_pos hfront, List.dropWhile_cons_of_neg (by simp [hc])]

/-- A class stops at the first character that is not of it. -/
theorem any_head?_dropWhile {c : Char} (hc : accepts c = false) (cs rest : List Char) :
    (cs.dropWhile accepts ++ c :: rest).head?.any accepts = false := by
  cases hdrop : cs.dropWhile accepts with
  | nil => exact hc
  | cons d more =>
    obtain ⟨-, -, hd, -⟩ := dropWhile_eq_cons_iff.1 hdrop
    exact hd

theorem openQuote?_eq_some_iff :
    openQuote? name cs = some rest ↔ ∃ read, OpensQuote name read ∧ cs = read ++ rest := by
  constructor
  · intro h
    obtain ⟨behind, hword, h⟩ := Option.bind_eq_some_iff.1 h
    obtain ⟨behind', hsign, hquote⟩ := Option.bind_eq_some_iff.1 h
    obtain ⟨word, hfolded, rfl⟩ := afterFolded?_eq_some_iff.1 hword
    obtain ⟨c, hc, hgap⟩ := afterChar?_eq_some_iff.1 hsign
    obtain rfl : c = '=' := beq_iff_eq.1 hc
    obtain ⟨q, hq, hgap'⟩ := afterChar?_eq_some_iff.1 hquote
    obtain ⟨gap, hblank, -, rfl⟩ := dropWhile_eq_cons_iff.1 hgap
    obtain ⟨gap', hblank', -, rfl⟩ := dropWhile_eq_cons_iff.1 hgap'
    exact ⟨_, ⟨word, gap, gap', q, hfolded, hblank, hblank', hq, rfl⟩, by simp⟩
  · rintro ⟨read, ⟨word, gap, gap', q, hfolded, hblank, hblank', hq, rfl⟩, rfl⟩
    have hword : afterFolded? name.toList (word ++ (gap ++ '=' :: (gap' ++ [q])) ++ rest) =
        some (gap ++ '=' :: (gap' ++ q :: rest)) :=
      afterFolded?_eq_some_iff.2 ⟨word, hfolded, by simp⟩
    have hgap : (gap ++ '=' :: (gap' ++ q :: rest)).dropWhile Text.isBlank =
      '=' :: (gap' ++ q :: rest) :=
      dropWhile_eq_cons_iff.2 ⟨gap, hblank, rfl, rfl⟩
    have hgap' : (gap' ++ q :: rest).dropWhile Text.isBlank = q :: rest :=
      dropWhile_eq_cons_iff.2 ⟨gap', hblank', isBlank_of_isQuote hq, rfl⟩
    have hsign : afterChar? (· == '=') ('=' :: (gap' ++ q :: rest)) = some (gap' ++ q :: rest) :=
      rfl
    rw [openQuote?, hword, Option.bind_some, hgap, hsign, Option.bind_some, hgap', afterChar?,
      if_pos hq]

theorem closeQuote?_eq_some_iff :
    closeQuote? cs = some (value, rest) ↔
      value ≠ [] ∧ (∀ c ∈ value, isUnquoted c = true) ∧ ∃ q, isQuote q = true ∧
      cs = value ++ q :: rest := by
  constructor
  · intro h
    rw [closeQuote?] at h
    split at h
    · cases h
    · rename_i hne
      obtain ⟨behind, hquote, heq⟩ := Option.map_eq_some_iff.1 h
      obtain ⟨rfl, rfl⟩ := Prod.mk.inj heq
      obtain ⟨q, hq, hdrop⟩ := afterChar?_eq_some_iff.1 hquote
      refine ⟨by simpa using hne, fun c hc => List.mem_takeWhile_imp hc, q, hq, ?_⟩
      rw [← hdrop, List.takeWhile_append_dropWhile]
  · rintro ⟨hne, hvalue, q, hq, rfl⟩
    have hstop : isUnquoted q = false := by rw [isUnquoted_eq_not, hq]; rfl
    have htake : (value ++ q :: rest).takeWhile isUnquoted = value := by
      rw [List.takeWhile_append_of_pos hvalue, List.takeWhile_cons_of_neg (by simp [hstop]),
        List.append_nil]
    have hdrop : (value ++ q :: rest).dropWhile isUnquoted = q :: rest :=
      dropWhile_eq_cons_iff.2 ⟨value, hvalue, hstop, rfl⟩
    rw [closeQuote?, htake, if_neg (by simpa using hne), hdrop, afterChar?, if_pos hq]
    rfl

theorem valueAt?_eq_some_iff :
    valueAt? name cs = some (value, rest) ↔ ∃ read q, OpensQuote name read ∧ value ≠ [] ∧
      (∀ c ∈ value, isUnquoted c = true) ∧ isQuote q = true ∧
      cs = read ++ (value ++ q :: rest) := by
  rw [valueAt?, Option.bind_eq_some_iff]
  constructor
  · rintro ⟨behind, hopen, hclose⟩
    obtain ⟨read, hread, rfl⟩ := openQuote?_eq_some_iff.1 hopen
    obtain ⟨hne, hvalue, q, hq, rfl⟩ := closeQuote?_eq_some_iff.1 hclose
    exact ⟨read, q, hread, hne, hvalue, hq, rfl⟩
  · rintro ⟨read, q, hread, hne, hvalue, hq, rfl⟩
    exact ⟨_, openQuote?_eq_some_iff.2 ⟨read, hread, rfl⟩,
      closeQuote?_eq_some_iff.2 ⟨hne, hvalue, q, hq, rfl⟩⟩

theorem moduleAt?_eq_some_iff {a : Unit} :
    moduleAt? cs = some (a, rest) ↔ ∃ read word q, OpensQuote "type" read ∧
      Folded "module".toList word ∧
      isQuote q = true ∧ cs = read ++ (word ++ q :: rest) := by
  rw [moduleAt?, Option.bind_eq_some_iff]
  constructor
  · rintro ⟨behind, hopen, h⟩
    obtain ⟨behind', hword, h⟩ := Option.bind_eq_some_iff.1 h
    obtain ⟨rest', hquote, heq⟩ := Option.map_eq_some_iff.1 h
    obtain ⟨-, rfl⟩ := Prod.mk.inj heq
    obtain ⟨read, hread, rfl⟩ := openQuote?_eq_some_iff.1 hopen
    obtain ⟨word, hfolded, rfl⟩ := afterFolded?_eq_some_iff.1 hword
    obtain ⟨q, hq, rfl⟩ := afterChar?_eq_some_iff.1 hquote
    exact ⟨read, word, q, hread, hfolded, hq, rfl⟩
  · rintro ⟨read, word, q, hread, hfolded, hq, rfl⟩
    refine ⟨_, openQuote?_eq_some_iff.2 ⟨read, hread, rfl⟩, ?_⟩
    rw [afterFolded?_eq_some_iff.2 ⟨word, hfolded, rfl⟩, Option.bind_some,
      afterChar?_eq_some_iff.2 ⟨q, hq, rfl⟩]
    rfl

theorem lastSource?_eq_none_iff :
    lastSource? tail cs = none ↔ ∀ here, here ≠ [] → here <:+ cs →
    valueAt? "src" (here ++ tail) = none := by
  induction cs with
  | nil =>
    refine iff_of_true rfl ?_
    intro here hne hhere
    exact absurd (List.suffix_nil.1 hhere) hne
  | cons c cs ih =>
    rw [lastSource?]
    cases hlater : lastSource? tail cs with
    | some found =>
      simp only [reduceCtorEq, false_iff]
      intro hnone
      rw [ih.2 fun here hne hhere => hnone here hne (hhere.trans (List.suffix_cons c cs))] at hlater
      cases hlater
    | none =>
      simp only [Option.map_eq_none_iff]
      refine ⟨fun hhere here hne hsuffix => ?_,
        fun hnone => hnone (c :: cs) (by simp) (List.suffix_refl _)⟩
      rcases List.suffix_cons_iff.1 hsuffix with rfl | hsuffix
      · exact hhere
      · exact ih.1 hlater here hne hsuffix

/-- The last source is one behind which no other starts. -/
theorem lastSource?_eq_some_iff {front : List Char} :
    lastSource? tail cs = some (front, value, rest) ↔ ∃ c here, cs = front ++ c :: here ∧
      valueAt? "src" (c :: (here ++ tail)) = some (value, rest) ∧ lastSource? tail here = none := by
  constructor
  · intro h
    induction cs generalizing front with
    | nil => cases h
    | cons d cs ih =>
      rw [lastSource?] at h
      cases hlater : lastSource? tail cs with
      | some found =>
        rw [hlater] at h
        obtain ⟨front', found⟩ := found
        obtain ⟨rfl, rfl⟩ := Prod.mk.inj (Option.some.inj h)
        obtain ⟨c, here, rfl, hfound⟩ := ih hlater
        exact ⟨c, here, rfl, hfound⟩
      | none =>
        rw [hlater] at h
        obtain ⟨found, hfound, heq⟩ := Option.map_eq_some_iff.1 h
        obtain ⟨rfl, rfl⟩ := Prod.mk.inj heq
        exact ⟨d, cs, rfl, hfound, hlater⟩
  · rintro ⟨c, here, rfl, hvalue, hnone⟩
    induction front with
    | nil =>
      rw [List.nil_append, lastSource?, hnone]
      dsimp only
      rw [hvalue]
      rfl
    | cons d front ih => rw [List.cons_append, lastSource?, ih]

theorem lastSource?_of_suffix {here : List Char} (h : lastSource? tail cs = none)
    (hhere : here <:+ cs) :
    lastSource? tail here = none :=
  lastSource?_eq_none_iff.2 fun more hne hmore => lastSource?_eq_none_iff.1 h more hne
    (hmore.trans hhere)

/-! ### Sources within a tag -/

theorem toLower_of_isBlank {c : Char} (h : Text.isBlank c = true) : c.toLower = c := by
  apply dif_neg
  intro hupper
  have halpha : c.isAlpha = true := Bool.or_eq_true_iff.2 (.inl (decide_eq_true hupper))
  rw [Text.isBlank_of_isWord (Text.isWord_of_isAlpha halpha)] at h
  cases h

/-- White space and the end of a tag are no letters, in either case. -/
theorem foldsTo_eq_false {x c : Char} (hx : Text.isBlank x = false) (hne : x ≠ '>')
    (hc : Text.isBlank c = true ∨ c = '>') : foldsTo x c = false := by
  have hlower : c.toLower = c := by
    rcases hc with hc | rfl
    · exact toLower_of_isBlank hc
    · rfl
  have hdiffers : ∀ y : Char, Text.isBlank y = false → y ≠ '>' → c ≠ y := by
    rintro y hy hne' rfl
    rcases hc with hc | hc
    · rw [hc] at hy
      cases hy
    · exact hne' hc
  simp [foldsTo, hlower, hdiffers x hx hne, hdiffers '\u017f' rfl (by decide),
    hdiffers '\u212a' rfl (by decide)]

theorem openQuote?_eq_none {x c : Char} {xs : List Char} (hname : name.toList = x :: xs)
    (hx : Text.isBlank x = false) (hne : x ≠ '>') (hc : Text.isBlank c = true ∨ c = '>')
    (cs : List Char) : openQuote? name (c :: cs) = none := by
  rw [openQuote?, hname, afterFolded?, foldsTo_eq_false hx hne hc]
  rfl

theorem valueAt?_eq_none {c : Char} (hc : Text.isBlank c = true ∨ c = '>') (cs : List Char) :
    valueAt? "src" (c :: cs) = none := by
  have hopen : openQuote? "src" (c :: cs) = none :=
      openQuote?_eq_none (x := 's') rfl rfl (by decide) hc cs
  rw [valueAt?, hopen]
  rfl

theorem carriesModule_dropWhile (cs : List Char) :
    carriesModule (cs.dropWhile Text.isBlank) = carriesModule cs := by
  induction cs with
  | nil => rfl
  | cons c cs ih =>
    rw [List.dropWhile_cons]
    split
    · rename_i hc
      have hopen : openQuote? "type" (c :: cs) = none :=
          openQuote?_eq_none (x := 't') rfl rfl (by decide) (.inl hc) cs
      have hhere : (moduleAt? (c :: cs)).isSome = false := by
        rw [moduleAt?, hopen]
        rfl
      rw [ih, carriesModule, carriesModule, List.tails_cons, List.any_cons, hhere, Bool.false_or]
    · rfl

theorem not_mem_of_folded {word : List Char} (h : Folded word read)
    (hword : word.all (fun x => !Text.isBlank x && x != '>') = true) : '>' ∉ read := by
  induction h with
  | nil => simp
  | @cons x c word read hfold _ ih =>
    obtain ⟨hhead, hword⟩ := Bool.and_eq_true_iff.1 hword
    obtain ⟨hx, hne⟩ := Bool.and_eq_true_iff.1 hhead
    have hc : '>' ≠ c := by
      rintro rfl
      rw [foldsTo_eq_false (by simpa using hx) (bne_iff_ne.1 hne) (.inr rfl)] at hfold
      cases hfold
    rw [List.mem_cons, not_or]
    exact ⟨hc, ih hword⟩

theorem not_mem_of_class {c : Char} (hc : accepts c = false) (h : ∀ x ∈ cs, accepts x = true) :
    c ∉ cs :=
  fun hmem => Text.ne_of_class (h c hmem) hc rfl

theorem OpensQuote.not_mem (h : OpensQuote "src" read) : '>' ∉ read := by
  obtain ⟨word, gap, gap', q, hword, hgap, hgap', hq, rfl⟩ := h
  have hletters : '>' ∉ word := not_mem_of_folded hword rfl
  have hquote : '>' ≠ q := (Text.ne_of_class hq rfl).symm
  have hblank : '>' ∉ gap := not_mem_of_class rfl hgap
  have hblank' : '>' ∉ gap' := not_mem_of_class rfl hgap'
  simp [hletters, hblank, hblank', hquote]

/-- What the text in front of the end of a tag starts with stands in the tag. -/
theorem exists_inside {inside more : List Char} (htail : tail.head?.all (· == '>') = true)
    (hmore : '>' ∉ more) (h : inside ++ tail = more ++ rest) :
      ∃ inside', inside = more ++ inside' ∧ rest = inside' ++ tail := by
  rcases List.append_eq_append_iff.1 h with ⟨beyond, rfl, rfl⟩ | ⟨inside', rfl, rfl⟩
  · cases beyond with
    | nil => exact ⟨[], by simp, by simp⟩
    | cons c beyond =>
      obtain rfl : c = '>' := by simpa using htail
      simp at hmore
  · exact ⟨inside', rfl, rfl⟩

theorem valueAt?_append (h : valueAt? "src" cs = some (value, rest)) (tail : List Char) :
    valueAt? "src" (cs ++ tail) = some (value, rest ++ tail) := by
  obtain ⟨read, q, hread, hne, hvalue, hq, rfl⟩ := valueAt?_eq_some_iff.1 h
  exact valueAt?_eq_some_iff.2 ⟨read, q, hread, hne, hvalue, hq, by simp⟩

theorem lastSource?_nil_eq_none (h : lastSource? tail cs = none) : lastSource? [] cs = none := by
  rw [lastSource?_eq_none_iff] at h ⊢
  intro here hne hhere
  rw [List.append_nil]
  cases hvalue : valueAt? "src" here with
  | none => rfl
  | some found =>
    have hlonger := h here hne hhere
    rw [valueAt?_append hvalue tail] at hlonger
    cases hlonger

/-- A source whose value does not go beyond the tag is a source of the tag alone. -/
theorem lastSource?_nil_eq_some {front : List Char} (htail : tail.head?.all (· == '>') = true)
    (h : lastSource? tail cs = some (front, value, rest)) (hvalue : '>' ∉ value) :
    ∃ more, lastSource? [] cs = some (front, value, more) ∧ rest = more ++ tail ∧
    lastSource? tail more = none := by
  obtain ⟨c, here, rfl, hfound, hlater⟩ := lastSource?_eq_some_iff.1 h
  obtain ⟨read, q, hread, hne, hunquoted, hq, heq⟩ := valueAt?_eq_some_iff.1 hfound
  have hquote : '>' ≠ q := (Text.ne_of_class hq rfl).symm
  have hwhole : (c :: here) ++ tail = (read ++ (value ++ [q])) ++ rest := by simpa using heq
  obtain ⟨more, hmore, rfl⟩ := exists_inside htail (by simp [hread.not_mem, hvalue, hquote]) hwhole
  have hinside : valueAt? "src" (c :: (here ++ [])) = some (value, more) :=
    valueAt?_eq_some_iff.2 ⟨read, q, hread, hne, hunquoted, hq, by simpa using hmore⟩
  have hsuffix : more <:+ here := by
    rcases List.suffix_cons_iff.1 ⟨_, hmore.symm⟩ with heq | hsuffix
    · have hlength := congrArg List.length hmore
      simp only [heq, List.length_append, List.length_cons] at hlength
      omega
    · exact hsuffix
  exact ⟨more, lastSource?_eq_some_iff.2 ⟨c, here, rfl, hinside, lastSource?_nil_eq_none hlater⟩,
    rfl, lastSource?_of_suffix hlater hsuffix⟩

/-! ### The patterns of attributes -/

/-- The name of an attribute, an equals sign and a quote. -/
def assignment (name : String) : Pattern :=
  .seq (litFolded name) (.seq gap (.seq (one '=') (.seq gap quote)))

theorem leads_one (c : Char) (hs : s.cursor.rest = c :: rest) :
    (one c).Leads s (s.after [c] rest) :=
  leads_char (beq_self_eq_true c) hs

theorem leads_quote (hq : isQuote q = true) (hs : s.cursor.rest = q :: rest) :
    quote.Leads s (s.after [q] rest) :=
  leads_char hq hs

theorem leads_assignment (hread : OpensQuote name read) (hs : s.cursor.rest = read ++ rest) :
    (assignment name).Leads s (s.after read rest) := by
  obtain ⟨word, gap, gap', q, hword, hgap, hgap', hq, rfl⟩ := hread
  have hstop : (q :: rest).head?.any Text.isBlank = false := isBlank_of_isQuote hq
  simp only [List.append_assoc, List.cons_append, List.nil_append] at hs
  have hall := (leads_litFolded hword hs).seq ((leads_run hgap rfl rfl).seq
    ((leads_one '=' rfl).seq ((leads_run hgap' hstop rfl).seq (leads_quote hq rfl))))
  simp only [Progress.after_after, List.append_assoc, List.cons_append, List.nil_append] at hall
  exact hall

theorem opensQuote_of_mem_ways (h : t ∈ ways (assignment name) s) :
    ∃ read, s.cursor.Reads read t.cursor ∧ OpensQuote name read := by
  obtain ⟨u₁, hword, h⟩ := List.mem_flatMap.1 h
  obtain ⟨u₂, hgap, h⟩ := List.mem_flatMap.1 h
  obtain ⟨u₃, hsign, h⟩ := List.mem_flatMap.1 h
  obtain ⟨u₄, hgap', hquote⟩ := List.mem_flatMap.1 h
  obtain ⟨word, hword, hfolded⟩ := folded_of_mem_ways hword
  obtain ⟨-, gap, hgap, hblank⟩ := reads_of_mem_ways_run hgap
  obtain ⟨-, c, hsign, hc⟩ := reads_of_mem_ways_char hsign
  obtain ⟨-, gap', hgap', hblank'⟩ := reads_of_mem_ways_run hgap'
  obtain ⟨-, q, hquote, hq⟩ := reads_of_mem_ways_char hquote
  obtain rfl : c = '=' := beq_iff_eq.1 hc
  exact ⟨_, hword.trans (hgap.trans (hsign.trans (hgap'.trans hquote))),
    word, gap, gap', q, hfolded, hblank, hblank', hq, rfl⟩

/-- A source and its value. -/
def sourceValue : Pattern :=
  .seq (assignment "src") (.seq (.group "source" (run1 isUnquoted)) quote)

theorem leads_sourceValue (h : valueAt? "src" s.cursor.rest = some (value, rest)) :
    ∃ t, sourceValue.Leads s t ∧ t.cursor.rest = rest ∧
      ∃ capture, capture.text = value ∧ t.groups = ("source", capture) :: s.groups := by
  obtain ⟨read, q, hread, hne, hvalue, hq, hs⟩ := valueAt?_eq_some_iff.1 h
  have hstop : (q :: rest).head?.any isUnquoted = false := by
    rw [List.head?_cons, Option.any_some, isUnquoted_eq_not, hq]
    rfl
  have hopen := leads_assignment hread hs
  have hsource := (leads_run1 (s := s.after read (value ++ q :: rest)) hne hvalue hstop rfl).group
    "source"
  have hreads : (s.after read (value ++ q :: rest)).cursor.Reads value
      ((s.after read (value ++ q :: rest)).after value (q :: rest)).cursor := ⟨rfl, rfl⟩
  exact ⟨_, hopen.seq (hsource.seq (leads_quote hq rfl)), rfl, _, hreads.text, rfl⟩

theorem fails_sourceValue (h : valueAt? "src" s.cursor.rest = none) : sourceValue.Fails s := by
  apply List.eq_nil_iff_forall_not_mem.2
  intro t ht
  obtain ⟨u, hopen, ht⟩ := List.mem_flatMap.1 ht
  obtain ⟨v, hsource, hquote⟩ := List.mem_flatMap.1 ht
  obtain ⟨read, hopen, hread⟩ := opensQuote_of_mem_ways hopen
  obtain ⟨v, hrun, rfl⟩ := List.mem_map.1 hsource
  obtain ⟨w, hfirst, hmore⟩ := List.mem_flatMap.1 hrun
  obtain ⟨-, c, hfirst, hc⟩ := reads_of_mem_ways_char hfirst
  obtain ⟨-, more, hmore, hall⟩ := reads_of_mem_ways_run hmore
  obtain ⟨-, q, hquote, hq⟩ := reads_of_mem_ways_char hquote
  have hvalue : valueAt? "src" s.cursor.rest = some (c :: more, t.cursor.rest) := by
    refine valueAt?_eq_some_iff.2 ⟨read, q, hread, by simp, by simpa [hc] using hall, hq, ?_⟩
    rw [hopen.rest, hfirst.rest, hmore.rest, hquote.rest]
    simp
  rw [hvalue] at h
  cases h

theorem ways_moduleType (s : Progress) :
    ways moduleType s = ways (.seq (assignment "type") (.seq (litFolded "module") quote)) s := by
  simp only [moduleType, assignment, append_eq_seq, ways, List.flatMap_assoc]

theorem moduleType_readBy : moduleType.ReadBy (fun _ => ()) moduleAt? where
  fails := by
    intro cs h offset prior
    apply List.eq_nil_iff_forall_not_mem.2
    intro t ht
    rw [ways_moduleType] at ht
    obtain ⟨u, hopen, ht⟩ := List.mem_flatMap.1 ht
    obtain ⟨v, hword, hquote⟩ := List.mem_flatMap.1 ht
    obtain ⟨read, hopen, hread⟩ := opensQuote_of_mem_ways hopen
    obtain ⟨word, hword, hfolded⟩ := folded_of_mem_ways hword
    obtain ⟨-, q, hquote, hq⟩ := reads_of_mem_ways_char hquote
    have hcs : cs = read ++ (word ++ q :: t.cursor.rest) := by
      rw [show cs = _ from hopen.rest, hword.rest, hquote.rest]
      rfl
    have hmodule : moduleAt? cs = some ((), t.cursor.rest) :=
      moduleAt?_eq_some_iff.2 ⟨read, word, q, hread, hfolded, hq, hcs⟩
    rw [hmodule] at h
    cases h
  shorter := by
    intro cs a rest h
    obtain ⟨read, word, q, -, -, -, rfl⟩ := moduleAt?_eq_some_iff.1 h
    simp only [List.length_append, List.length_cons]
    omega
  leads := by
    intro cs a rest h offset prior
    obtain ⟨read, word, q, hread, hword, hq, hcs⟩ := moduleAt?_eq_some_iff.1 h
    have hopen := leads_assignment (s := ⟨⟨offset, prior, cs⟩, []⟩) hread hcs
    have hall := hopen.seq ((leads_litFolded hword rfl).seq (leads_quote hq rfl))
    rw [Leads, ← ways_moduleType] at hall
    exact ⟨_, hall, rfl, rfl⟩

theorem occurs_moduleType (cs : List Char) : moduleType.occurs cs = carriesModule cs :=
  moduleType_readBy.occurs_eq cs

end CodeSurvey.Document
