import CodeSurvey.Proofs.Pattern.Capture

/-!
# The preferred way

The first way to match counts. It is found part by part where each part is matched in its preferred
way, and a pattern has no match where every way through its first part leads to a place at which the
rest has none.
-/
namespace CodeSurvey.Pattern

/-- The preferred way to match leads from one place to another. -/
def Leads (p : Pattern) (s t : Progress) : Prop :=
  (ways p s).head? = some t

/-- There is no way to match. -/
def Fails (p : Pattern) (s : Progress) : Prop :=
  ways p s = []

/-- The place behind `read`, where `rest` follows. -/
def Progress.after (s : Progress) (read rest : List Char) : Progress :=
  ⟨⟨s.cursor.offset + Text.size read, read.getLast?.or s.cursor.prior, rest⟩, s.groups⟩

variable {p q : Pattern} {s t u : Progress} {accepts : Char → Bool} {read rest : List Char}

theorem Progress.after_after (s : Progress) (read more cs rest : List Char) :
    (s.after read cs).after more rest = s.after (read ++ more) rest := by
  simp [after, Option.or_assoc, Nat.add_assoc]

theorem matchHead?_of_leads {cs : List Char} (h : p.Leads ⟨.start cs, []⟩ t) :
    p.matchHead? cs = some ⟨⟨.start cs, t.cursor⟩, t.groups⟩ := by
  rw [matchHead?, matchAt?, h]
  rfl

theorem matchHead?_of_fails {cs : List Char} (h : p.Fails ⟨.start cs, []⟩) :
    p.matchHead? cs = none := by
  rw [matchHead?, matchAt?, h]
  rfl

/-- What was read ends where the rest starts. -/
theorem Leads.offset {cs : List Char} (h : p.Leads ⟨.start cs, []⟩ t)
    (hcs : cs = read ++ t.cursor.rest) :
    t.cursor.offset = Text.size read := by
  obtain ⟨front, hreads⟩ := reads_of_mem_ways (List.mem_of_mem_head? h)
  have hfront : front = read := List.append_cancel_right (hreads.rest.symm.trans hcs)
  rw [hreads.offset, hfront]
  exact Nat.zero_add _

/-! ### Parts in sequence -/

theorem Leads.seq (hp : p.Leads s t) (hq : q.Leads t u) : (Pattern.seq p q).Leads s u := by
  obtain ⟨others, hways⟩ := List.head?_eq_some_iff.1 hp
  rw [Leads, ways, hways, List.flatMap_cons, List.head?_append, hq]
  rfl

theorem Fails.seq (h : p.Fails s) (q : Pattern) : (Pattern.seq p q).Fails s := by
  rw [Fails, ways, h]
  rfl

theorem fails_seq_iff : (Pattern.seq p q).Fails s ↔ ∀ t ∈ ways p s, q.Fails t := by
  rw [Fails, ways, List.flatMap_eq_nil_iff]
  rfl

/-- There is one way through the first part, and none goes on from there. -/
theorem fails_seq_of_ways_eq (hp : ways p s = [t]) (hq : q.Fails t) :
    (Pattern.seq p q).Fails s := by
  rw [fails_seq_iff, hp]
  intro u hu
  rwa [List.mem_singleton.1 hu]

theorem fails_seq_assoc {r : Pattern} :
    (Pattern.seq (.seq p q) r).Fails s ↔ (Pattern.seq p (.seq q r)).Fails s := by
  simp only [Fails, ways, List.flatMap_assoc]

theorem Leads.group (h : p.Leads s t) (name : String) :
    (Pattern.group name p).Leads s { t with groups :=
      (name, ⟨s.cursor, t.cursor⟩) :: t.groups } := by
  rw [Leads, ways, List.head?_map, h]
  rfl

theorem Fails.group (h : p.Fails s) (name : String) : (Pattern.group name p).Fails s := by
  rw [Fails, ways, h]
  rfl

theorem Leads.alt (h : p.Leads s t) (q : Pattern) : (Pattern.alt p q).Leads s t := by
  rw [Leads, ways, List.head?_append, h]
  rfl

theorem Fails.ways_opt (h : p.Fails s) : ways (.opt p) s = [s] := by
  rw [Pattern.opt, ways, h]
  rfl

theorem Fails.opt (h : p.Fails s) : (Pattern.opt p).Leads s s := by
  rw [Leads, h.ways_opt]
  rfl

theorem Fails.ways_many (h : p.Fails s) : ways (.many p) s = [s] := by
  rw [ways]
  cases s.cursor.rest.length with
  | zero => rfl
  | succ n =>
    rw [repeated, h]
    rfl

theorem Fails.many (h : p.Fails s) : (Pattern.many p).Leads s s := by
  rw [Leads, h.ways_many]
  rfl

theorem Fails.many_seq (hp : p.Fails s) (hq : q.Fails s) : (Pattern.seq (.many p) q).Fails s :=
  fails_seq_of_ways_eq hp.ways_many hq

/-! ### Characters, runs and words -/

theorem ways_char {c : Char} (hc : accepts c = true) (hs : s.cursor.rest = c :: rest) :
    ways (.char accepts) s = [s.after [c] rest] := by
  rw [ways, Cursor.step?, hs]
  dsimp only
  rw [if_pos hc]
  rfl

theorem leads_char {c : Char} (hc : accepts c = true) (hs : s.cursor.rest = c :: rest) :
    (Pattern.char accepts).Leads s (s.after [c] rest) := by
  rw [Leads, ways_char hc hs]
  rfl

theorem fails_char (hstop : s.cursor.rest.head?.any accepts = false) :
    (Pattern.char accepts).Fails s := by
  rw [Fails, ways, Cursor.step?]
  cases hrest : s.cursor.rest with
  | nil => rfl
  | cons c rest =>
    have hc : accepts c = false := by rwa [hrest] at hstop
    dsimp only
    rw [if_neg (by simp [hc])]

theorem Cursor.head?_runs (hread : ∀ c ∈ read, accepts c = true)
    (hstop : rest.head?.any accepts = false) (offset : Nat) (prior : Option Char)
    (acc : List Cursor) :
    (Cursor.runs accepts offset (read ++ rest) (⟨offset, prior, read ++ rest⟩ :: acc)).head? =
      some ⟨offset + Text.size read, read.getLast?.or prior, rest⟩ := by
  induction read generalizing offset prior acc with
  | nil =>
    cases rest with
    | nil => rfl
    | cons c rest =>
      have hc : accepts c = false := hstop
      rw [List.nil_append, Cursor.runs, if_neg (by simp [hc])]
      rfl
  | cons c read ih =>
    rw [List.cons_append, Cursor.runs, if_pos (hread c (by simp)),
      ih fun d hd => hread d (by simp [hd])]
    simp [List.getLast?_cons, Nat.add_assoc]

/-- A run goes as far as its class does. -/
theorem leads_run (hread : ∀ c ∈ read, accepts c = true) (hstop : rest.head?.any accepts = false)
    (hs : s.cursor.rest = read ++ rest) : (Pattern.run accepts).Leads s (s.after read rest) := by
  obtain ⟨⟨offset, prior, cs⟩, groups⟩ := s
  obtain rfl : cs = read ++ rest := hs
  rw [Leads, ways, List.head?_map, Cursor.head?_runs hread hstop]
  rfl

theorem Cursor.runs_of_stop (hstop : rest.head?.any accepts = false) (offset : Nat)
    (acc : List Cursor) :
    Cursor.runs accepts offset rest acc = acc := by
  cases rest with
  | nil => rfl
  | cons c rest =>
    have hc : accepts c = false := hstop
    rw [Cursor.runs, if_neg (by simp [hc])]

theorem ways_run_nil (hstop : s.cursor.rest.head?.any accepts = false) :
    ways (.run accepts) s = [s] := by
  rw [ways, Cursor.runs_of_stop hstop]
  rfl

/-- A run may be empty. -/
theorem leads_run_nil (hstop : s.cursor.rest.head?.any accepts = false) :
    (Pattern.run accepts).Leads s s := by
  rw [Leads, ways_run_nil hstop]
  rfl

theorem leads_run1 (hne : read ≠ []) (hread : ∀ c ∈ read, accepts c = true)
    (hstop : rest.head?.any accepts = false) (hs : s.cursor.rest = read ++ rest) :
    (run1 accepts).Leads s (s.after read rest) := by
  cases read with
  | nil => exact absurd rfl hne
  | cons c read =>
    have hrun := leads_run (s := s.after [c] (read ++ rest))
      (fun d hd => hread d (by simp [hd])) hstop rfl
    rw [Progress.after_after] at hrun
    exact (leads_char (hread c (by simp)) hs).seq hrun

theorem ways_lit (w : String) (hs : s.cursor.rest = w.toList ++ rest) :
    ways (lit w) s = [s.after w.toList rest] := by
  rw [lit]
  generalize w.toList = cs at hs
  induction cs generalizing s with
  | nil =>
    have hafter : s.after [] rest = s := by
      obtain ⟨⟨offset, prior, cs⟩, groups⟩ := s
      obtain rfl : cs = rest := hs
      rfl
    rw [hafter]
    rfl
  | cons c cs ih =>
    have hchar : ways (one c) s = [s.after [c] (cs ++ rest)] := ways_char (beq_self_eq_true c) hs
    have hmore := ih (s := s.after [c] (cs ++ rest)) rfl
    rw [Progress.after_after] at hmore
    rw [List.foldr_cons, ways, hchar, List.flatMap_singleton, hmore]
    rfl

theorem leads_lit (w : String) (hs : s.cursor.rest = w.toList ++ rest) :
    (lit w).Leads s (s.after w.toList rest) := by
  rw [Leads, ways_lit w hs]
  rfl

theorem leads_spaces {n : Nat} (hspace : accepts ' ' = true)
    (hstop : rest.head?.any accepts = false) (hs : s.cursor.rest = List.replicate n ' ' ++ rest) :
    (Pattern.run accepts).Leads s (s.after (List.replicate n ' ') rest) := by
  apply leads_run _ hstop hs
  intro c hc
  rwa [List.eq_of_mem_replicate hc]

theorem ways_blank (hstop : rest.head?.any Text.isBlank = false)
    (hs : s.cursor.rest = ' ' :: rest) :
    ways blank s = [s.after [' '] rest] := by
  rw [blank, run1, ways, ways_char rfl hs, List.flatMap_singleton]
  exact ways_run_nil hstop

theorem leads_blank (hstop : rest.head?.any Text.isBlank = false)
    (hs : s.cursor.rest = ' ' :: rest) :
    blank.Leads s (s.after [' '] rest) := by
  rw [Leads, ways_blank hstop hs]
  rfl

/-- A keyword and one space after it. -/
theorem ways_keyword (w : String) (hstop : rest.head?.any Text.isBlank = false)
    (hs : s.cursor.rest = w.toList ++ ' ' :: rest) :
    ways (keyword w) s = [s.after (w.toList ++ [' ']) rest] := by
  have hblank := ways_blank (s := s.after w.toList (' ' :: rest)) hstop rfl
  rw [Progress.after_after] at hblank
  rw [keyword, ways, ways_lit w hs, List.flatMap_singleton, hblank]

theorem leads_keyword (w : String) (hstop : rest.head?.any Text.isBlank = false)
    (hs : s.cursor.rest = w.toList ++ ' ' :: rest) :
      (keyword w).Leads s (s.after (w.toList ++ [' ']) rest) := by
  rw [Leads, ways_keyword w hstop hs]
  rfl

/-- The group that was closed last has the text that its body read. -/
theorem Match.string_group (whole : Capture) (name : String) (groups : List (String × Capture))
    {s : Progress} (hs : s.cursor.rest = read ++ rest) :
    (Match.mk whole ((name, ⟨s.cursor, (s.after read rest).cursor⟩) :: groups)).string name =
      String.ofList read := by
  have hreads : s.cursor.Reads read (s.after read rest).cursor := ⟨hs, rfl⟩
  rw [Match.string, Match.text, Match.group?, List.lookup_cons, beq_self_eq_true]
  exact congrArg String.ofList hreads.text

/-! ### Places without a match -/

theorem Cursor.mem_runs_suffix {offset : Nat} {acc : List Cursor} {c : Cursor}
    (hstop : rest.head?.any accepts = false)
    (h : c ∈ Cursor.runs accepts offset (read ++ rest) acc) :
    c ∈ acc ∨ ∃ offset' prior' more, more <:+ read ∧ c = ⟨offset', prior', more ++ rest⟩ := by
  induction read generalizing offset acc with
  | nil =>
    cases rest with
    | nil => exact .inl h
    | cons x rest =>
      have hx : accepts x = false := hstop
      rw [List.nil_append, Cursor.runs, if_neg (by simp [hx])] at h
      exact .inl h
  | cons x read ih =>
    rw [List.cons_append, Cursor.runs] at h
    split at h
    · rcases ih h with hmem | ⟨offset', prior', more, hmore, rfl⟩
      · rcases List.mem_cons.1 hmem with rfl | hmem
        · exact .inr ⟨_, _, read, List.suffix_cons x read, rfl⟩
        · exact .inl hmem
      · exact .inr ⟨_, _, more, hmore.trans (List.suffix_cons x read), rfl⟩
    · exact .inl h

/-- A run may stop anywhere in what its class reads. -/
theorem exists_suffix_of_mem_ways_run (hstop : rest.head?.any accepts = false)
    (hs : s.cursor.rest = read ++ rest) (ht : t ∈ ways (.run accepts) s) :
    ∃ offset prior more, more <:+ read ∧ t = ⟨⟨offset, prior, more ++ rest⟩, s.groups⟩ := by
  obtain ⟨⟨offset, prior, cs⟩, groups⟩ := s
  obtain rfl : cs = read ++ rest := hs
  obtain ⟨c, hc, rfl⟩ := List.mem_map.1 ht
  rcases Cursor.mem_runs_suffix hstop hc with hmem | ⟨offset', prior', more, hmore, rfl⟩
  · obtain rfl := List.mem_singleton.1 hmem
    exact ⟨offset, prior, read, List.suffix_refl _, rfl⟩
  · exact ⟨offset', prior', more, hmore, rfl⟩

/-- Behind spaces a pattern fails if it does at a space and at what follows. -/
theorem fails_after_spaces {n : Nat} (hstop : rest.head?.any accepts = false)
    (hs : s.cursor.rest = List.replicate n ' ' ++ rest)
    (hspace : ∀ offset prior cs, p.Fails ⟨⟨offset, prior, ' ' :: cs⟩, s.groups⟩)
    (hrest : ∀ offset prior, p.Fails ⟨⟨offset, prior, rest⟩, s.groups⟩) :
    (Pattern.seq (.run accepts) p).Fails s := by
  rw [fails_seq_iff]
  intro t ht
  obtain ⟨offset, prior, more, hmore, rfl⟩ := exists_suffix_of_mem_ways_run hstop hs ht
  cases more with
  | nil => exact hrest offset prior
  | cons x more =>
    obtain rfl : x = ' ' := List.eq_of_mem_replicate (hmore.subset List.mem_cons_self)
    exact hspace offset prior (more ++ rest)

/-- At the start of a text the indentation may be matched. -/
theorem leads_indent {n : Nat} {cs : List Char} (hcs : cs = List.replicate n ' ' ++ rest)
    (hstop : rest.head?.any (fun c => c == ' ' || c == '\t') = false) :
    indent.Leads ⟨.start cs, []⟩ (Progress.after ⟨.start cs, []⟩ (List.replicate n ' ') rest) := by
  have hstart : Pattern.lineStart.Leads ⟨.start cs, []⟩ ⟨.start cs, []⟩ := rfl
  exact hstart.seq (leads_spaces rfl hstop hcs)

theorem fails_after_indent {n : Nat} {cs : List Char} (hcs : cs = List.replicate n ' ' ++ rest)
    (hstop : rest.head?.any (fun c => c == ' ' || c == '\t') = false)
    (hspace : ∀ offset prior cs, p.Fails ⟨⟨offset, prior, ' ' :: cs⟩, []⟩)
    (hrest : ∀ offset prior, p.Fails ⟨⟨offset, prior, rest⟩, []⟩) :
      (Pattern.seq indent p).Fails ⟨.start cs, []⟩ := by
  rw [indent, fails_seq_assoc, fails_seq_iff]
  intro t ht
  obtain rfl := List.mem_singleton.1 ht
  exact fails_after_spaces hstop hcs hspace hrest

end CodeSurvey.Pattern
