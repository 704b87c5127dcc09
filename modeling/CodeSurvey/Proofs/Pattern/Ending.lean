import CodeSurvey.Proofs.Pattern.Capture

/-!
# What follows a text

A pattern that can use no character of an ending matches a text with that ending as it matches the
text alone. So the first character that a pattern cannot use hides the rest of the line from it.
-/
namespace CodeSurvey

/-- The same place in the text with an ending. -/
def Cursor.extend (ending : List Char) (c : Cursor) : Cursor :=
  { c with rest := c.rest ++ ending }

def Capture.extend (ending : List Char) (c : Capture) : Capture :=
  ⟨c.start.extend ending, c.stop.extend ending⟩

theorem Cursor.Reads.extend {c d : Cursor} {read : List Char} (h : c.Reads read d)
    (ending : List Char) :
    (c.extend ending).Reads read (d.extend ending) := by
  refine ⟨?_, h.offset⟩
  simp only [Cursor.extend, h.rest, List.append_assoc]

namespace Pattern

def extendGroups (ending : List Char) (groups : List (String × Capture)) :
    List (String × Capture) :=
  groups.map fun g => (g.1, g.2.extend ending)

def Progress.extend (ending : List Char) (s : Progress) : Progress :=
  ⟨s.cursor.extend ending, extendGroups ending s.groups⟩

def Match.extend (ending : List Char) (m : Match) : Match :=
  ⟨m.whole.extend ending, extendGroups ending m.groups⟩

/-- The pattern matches with the ending as it matches without. -/
def Ignores (p : Pattern) (ending : List Char) : Prop :=
  ∀ s, ways p (s.extend ending) = (ways p s).map (Progress.extend ending)

/-- No character of the class comes next. -/
def Stops (accepts : Char → Bool) (ending : List Char) : Prop :=
  ending.head?.any accepts = false

variable {p q : Pattern} {ending : List Char} {accepts : Char → Bool}

theorem step?_extend (h : Stops accepts ending) (c : Cursor) :
    (c.extend ending).step? accepts = (c.step? accepts).map (Cursor.extend ending) := by
  obtain ⟨offset, prior, rest⟩ := c
  cases rest with
  | nil =>
    cases ending with
    | nil => rfl
    | cons x xs =>
      have hx : accepts x = false := h
      simp [Cursor.extend, Cursor.step?, hx]
  | cons x xs =>
    simp only [Cursor.extend, Cursor.step?, List.cons_append]
    split <;> rfl

theorem ignores_done : Pattern.done.Ignores ending :=
  fun _ => rfl

theorem ignores_char (h : Stops accepts ending) : (Pattern.char accepts).Ignores ending := by
  intro s
  have hstep := step?_extend h s.cursor
  have hcursor : (s.extend ending).cursor = s.cursor.extend ending := rfl
  rw [ways, hcursor, hstep, ways]
  cases s.cursor.step? accepts <;> rfl

/-- The places that a run reaches in the ending come before those that it reaches in the text. -/
theorem runs_extend (accepts : Char → Bool) (ending : List Char) (offset : Nat) (cs : List Char)
    (acc : List Cursor) :
    ∃ past : List Cursor, (∀ c ∈ past, ∃ x xs, x :: (xs ++ c.rest) = ending) ∧
      (Stops accepts ending → past = []) ∧
      Cursor.runs accepts offset (cs ++ ending) (acc.map (Cursor.extend ending)) =
        past ++ (Cursor.runs accepts offset cs acc).map (Cursor.extend ending) := by
  have hending : ∀ (offset : Nat) (cs : List Char) (acc : List Cursor), ∃ past : List Cursor,
      (∀ c ∈ past, ∃ x xs, x :: (xs ++ c.rest) = cs) ∧ (Stops accepts cs → past = []) ∧
        Cursor.runs accepts offset cs acc = past ++ acc := by
    intro offset cs
    induction cs generalizing offset with
    | nil => exact fun acc => ⟨[], by simp, fun _ => rfl, rfl⟩
    | cons x xs ih =>
      intro acc
      rw [Cursor.runs]
      split
      · rename_i hx
        obtain ⟨past, hpast, -, hruns⟩ := ih (offset + x.utf8Size)
          (⟨offset + x.utf8Size, some x, xs⟩ :: acc)
        refine ⟨past ++ [⟨offset + x.utf8Size, some x, xs⟩], ?_, ?_, ?_⟩
        · intro c hc
          rcases List.mem_append.1 hc with hc | hc
          · obtain ⟨y, ys, rfl⟩ := hpast c hc
            exact ⟨x, y :: ys, rfl⟩
          · rw [List.mem_singleton.1 hc]
            exact ⟨x, [], rfl⟩
        · intro hstops
          have hx' : accepts x = false := hstops
          rw [hx'] at hx
          cases hx
        · rw [hruns, List.append_assoc]
          rfl
      · exact ⟨[], by simp, fun _ => rfl, rfl⟩
  induction cs generalizing offset acc with
  | nil => exact hending offset ending _
  | cons x xs ih =>
    rw [List.cons_append, Cursor.runs, Cursor.runs]
    split
    · exact ih (offset + x.utf8Size) (⟨offset + x.utf8Size, some x, xs⟩ :: acc)
    · exact ⟨[], by simp, fun _ => rfl, rfl⟩

theorem ignores_run (h : Stops accepts ending) : (Pattern.run accepts).Ignores ending := by
  intro s
  obtain ⟨past, -, hstops, hruns⟩ := runs_extend accepts ending s.cursor.offset s.cursor.rest
    [s.cursor]
  rw [hstops h] at hruns
  simp only [ways, List.map_map]
  exact (congrArg _ hruns).trans (List.map_map ..)

namespace Ignores

theorem seq (hp : p.Ignores ending) (hq : q.Ignores ending) : (Pattern.seq p q).Ignores ending := by
  intro s
  simp only [ways, hp s, List.flatMap_map, List.map_flatMap]
  exact List.flatMap_congr fun t _ => hq t

theorem alt (hp : p.Ignores ending) (hq : q.Ignores ending) : (Pattern.alt p q).Ignores ending := by
  intro s
  simp only [ways, hp s, hq s, List.map_append]

theorem opt (hp : p.Ignores ending) : (Pattern.opt p).Ignores ending :=
  hp.alt ignores_done

theorem group (hp : p.Ignores ending) (name : String) : (Pattern.group name p).Ignores ending := by
  intro s
  simp only [ways, hp s, List.map_map]
  rfl

theorem seq_assoc {r : Pattern} (h : (Pattern.seq p (.seq q r)).Ignores ending) :
    (Pattern.seq (.seq p q) r).Ignores ending := by
  intro s
  have hs := h s
  simp only [ways, List.flatMap_assoc] at hs ⊢
  exact hs

/-- A run may go on into the ending if what comes after the run is never found there. -/
theorem run_seq (accepts : Char → Bool) (hq : q.Ignores ending)
    (hfails : ∀ (x : Char) (xs rest : List Char), x :: (xs ++ rest) = ending →
      ∀ offset prior groups, ways q ⟨⟨offset, prior, rest⟩, groups⟩ = []) :
        (Pattern.seq (.run accepts) q).Ignores ending := by
  intro s
  obtain ⟨past, hpast, -, hruns⟩ := runs_extend accepts ending s.cursor.offset s.cursor.rest
    [s.cursor]
  have hways : ways (.run accepts) (s.extend ending) =
      past.map (fun c => { s.extend ending with cursor := c }) ++
        (ways (.run accepts) s).map (Progress.extend ending) := by
    simp only [ways, List.map_map]
    refine (congrArg (List.map _) hruns).trans ?_
    rw [List.map_append, List.map_map]
    rfl
  have hnone : (past.map fun c => { s.extend ending with cursor := c }).flatMap (ways q) = [] := by
    rw [List.flatMap_eq_nil_iff]
    intro t ht
    obtain ⟨c, hc, rfl⟩ := List.mem_map.1 ht
    obtain ⟨x, xs, hending⟩ := hpast c hc
    exact hfails x xs c.rest hending _ _ _
  have hseq : ∀ t, ways (.seq (.run accepts) q) t = (ways (.run accepts) t).flatMap (ways q) :=
    fun _ => rfl
  rw [hseq, hways, List.flatMap_append, hnone, List.nil_append, hseq, List.flatMap_map,
    List.map_flatMap]
  exact List.flatMap_congr fun t _ => hq t

/-- A class of characters up to one that is not in the ending. -/
theorem run_char (accepts : Char → Bool) {last : Char} (h : last ∉ ending) :
    (Pattern.seq (.run accepts) (one last)).Ignores ending := by
  have hnone : ∀ rest : List Char, last ∉ rest → Stops (· == last) rest := by
    intro rest hrest
    cases rest with
    | nil => rfl
    | cons x xs =>
      rw [List.mem_cons, not_or] at hrest
      simpa [Stops] using Ne.symm hrest.1
  refine run_seq accepts (ignores_char (hnone ending h)) ?_
  rintro x xs rest rfl offset prior groups
  have hrest := hnone rest fun hmem => h (by simp [hmem])
  rw [one, ways]
  cases rest with
  | nil => rfl
  | cons y ys =>
    have hy : (y == last) = false := hrest
    simp [Cursor.step?, hy]

end Ignores

/-- Repetitions do not depend on the allowance for them, as each one reads something. -/
theorem repeated_eq {body : Pattern} {n m : Nat} {s : Progress} (hn : s.cursor.rest.length ≤ n)
    (hm : s.cursor.rest.length ≤ m) : repeated (ways body) n s = repeated (ways body) m s := by
  have hshorter : ∀ {s t : Progress}, t ∈
      (ways body s).filter (fun t => s.cursor.offset < t.cursor.offset) →
      t.cursor.rest.length < s.cursor.rest.length := by
    intro s t ht
    rw [List.mem_filter, decide_eq_true_eq] at ht
    obtain ⟨read, hread⟩ := reads_of_mem_ways ht.1
    cases read with
    | nil =>
      have hoffset := hread.offset
      simp only [Text.size_nil] at hoffset
      omega
    | cons x xs =>
      rw [hread.rest, List.length_append, List.length_cons]
      omega
  have hstuck : ∀ {k : Nat} {s : Progress}, s.cursor.rest.length = 0 →
      repeated (ways body) k s = [s] := by
    intro k s hs
    cases k with
    | zero => rfl
    | succ k =>
      have hnone : (ways body s).filter (fun t => s.cursor.offset < t.cursor.offset) = [] := by
        rw [List.eq_nil_iff_forall_not_mem]
        intro t ht
        have hlt := hshorter ht
        omega
      rw [repeated, hnone]
      rfl
  induction n generalizing m s with
  | zero => rw [hstuck (by omega), hstuck (by omega)]
  | succ n ih =>
    cases m with
    | zero => rw [hstuck (by omega), hstuck (by omega)]
    | succ m =>
      rw [repeated, repeated]
      congr 1
      refine List.flatMap_congr fun t ht => ?_
      have hlt := hshorter ht
      exact ih (by omega) (by omega)

theorem Ignores.many (hp : p.Ignores ending) : (Pattern.many p).Ignores ending := by
  have hrepeated : ∀ n s, repeated (ways p) n (s.extend ending) =
      (repeated (ways p) n s).map (Progress.extend ending) := by
    intro n
    induction n with
    | zero => exact fun s => rfl
    | succ n ih =>
      intro s
      rw [repeated, repeated, hp s, List.filter_map, List.flatMap_map, List.map_append,
        List.map_flatMap]
      congr 1
      exact List.flatMap_congr fun t _ => ih t
  intro s
  rw [ways, hrepeated, ways]
  congr 1
  refine repeated_eq ?_ (Nat.le_refl _)
  simp [Progress.extend, Cursor.extend]

theorem ignores_lineStart : Pattern.lineStart.Ignores ending := by
  intro s
  have hstart : (s.extend ending).cursor.atLineStart = s.cursor.atLineStart := rfl
  rw [ways, ways, hstart]
  split <;> rfl

theorem ignores_lit {w : String} (h : ∀ c ∈ w.toList, Stops (· == c) ending) :
    (lit w).Ignores ending := by
  rw [lit]
  generalize w.toList = cs at h
  induction cs with
  | nil => exact ignores_done
  | cons c cs ih =>
    rw [List.forall_mem_cons] at h
    exact (ignores_char h.1).seq (ih h.2)

theorem ignores_anyOf {words : List String}
    (h : ∀ w ∈ words, ∀ c ∈ w.toList, Stops (· == c) ending) :
    (anyOf words).Ignores ending := by
  fun_induction anyOf words with
  | case1 => exact ignores_char (by cases ending <;> rfl)
  | case2 w => exact ignores_lit (h w (by simp))
  | case3 w ws _ ih =>
    rw [List.forall_mem_cons] at h
    exact (ignores_lit h.1).alt (ih h.2)

theorem ignores_run1 (h : Stops accepts ending) : (run1 accepts).Ignores ending :=
  (ignores_char h).seq (ignores_run h)

theorem ignores_keyword {w : String} (h : ∀ c ∈ w.toList, Stops (· == c) ending)
    (hblank : Stops Text.isBlank ending) :
    (keyword w).Ignores ending :=
  (ignores_lit h).seq (ignores_run1 hblank)

theorem ignores_nil (p : Pattern) : p.Ignores [] := by
  have hcursor : ∀ c : Cursor, c.extend [] = c := by
    intro c
    rw [Cursor.extend, List.append_nil]
  have hgroups : ∀ groups, extendGroups [] groups = groups := by
    intro groups
    simp only [extendGroups, Capture.extend, hcursor, List.map_id']
  have hprogress : Progress.extend [] = id := by
    funext s
    rw [Progress.extend, hcursor, hgroups]
    rfl
  intro s
  rw [hprogress, List.map_id, id]

/-! ### Matches -/

theorem stop_le_size {cs : List Char} {m : Match} (h : p.matchHead? cs = some m) :
    m.whole.stop.offset ≤ Text.size cs := by
  obtain ⟨t, ht, rfl⟩ := exists_way_of_matchAt? h
  obtain ⟨read, hread⟩ := reads_of_mem_ways ht
  have hrest : cs = read ++ t.cursor.rest := hread.rest
  have hoffset : t.cursor.offset = 0 + Text.size read := hread.offset
  rw [hrest, Text.size_append]
  dsimp only
  omega

theorem Ignores.matchHead? (h : p.Ignores ending) (cs : List Char) :
    p.matchHead? (cs ++ ending) = (p.matchHead? cs).map (Match.extend ending) := by
  have hways := h ⟨.start cs, []⟩
  rw [Pattern.matchHead?, matchAt?, Pattern.matchHead?, matchAt?]
  have hstart : Progress.extend ending ⟨.start cs, []⟩ = ⟨.start (cs ++ ending), []⟩ := rfl
  rw [hstart] at hways
  rw [hways, List.head?_map, Option.map_map, Option.map_map]
  rfl

/-- A match reads the same from the text with the ending. -/
theorem Match.string_extend {cs : List Char} {m : Match} (h : p.matchHead? cs = some m)
    (ending : List Char) (name : String) : (m.extend ending).string name = m.string name := by
  have hgroup : (m.extend ending).group? name = (m.group? name).map (Capture.extend ending) := by
    simp only [group?, extend, extendGroups]
    induction m.groups with
    | nil => rfl
    | cons g groups ih =>
      rw [List.map_cons, List.lookup_cons, List.lookup_cons, ih]
      split <;> rfl
  rw [string, string, text, text, hgroup]
  cases hcapture : m.group? name with
  | none => rfl
  | some capture =>
    obtain ⟨⟨body, s, t, -, hways, hs, ht⟩, -, -⟩ := captured_of_matchAt? h hcapture
    obtain ⟨read, hread⟩ := reads_of_mem_ways hways
    rw [hs, ht] at hread
    have htext : (capture.extend ending).text = read := (hread.extend ending).text
    have hsame : capture.text = read := hread.text
    rw [Option.map_some, Option.elim_some, Option.elim_some, htext, hsame]

/-! ### Characters that a match cannot do without -/

/-- Every way to match reads a character of the class. -/
def Needs (p : Pattern) (accepts : Char → Bool) : Prop :=
  ∀ s t, t ∈ ways p s → ∃ read, s.cursor.Reads read t.cursor ∧ ∃ c ∈ read, accepts c = true

theorem needs_char (accepts : Char → Bool) : (Pattern.char accepts).Needs accepts := by
  intro s t ht
  obtain ⟨-, c, hread, hc⟩ := reads_of_mem_ways_char ht
  exact ⟨[c], hread, c, List.mem_singleton_self c, hc⟩

namespace Needs

theorem mono {accepts' : Char → Bool} (h : p.Needs accepts)
    (hsub : ∀ c, accepts c = true → accepts' c = true) :
    p.Needs accepts' := by
  intro s t ht
  obtain ⟨read, hread, c, hc, haccepts⟩ := h s t ht
  exact ⟨read, hread, c, hc, hsub c haccepts⟩

theorem seq_left (h : p.Needs accepts) (q : Pattern) : (Pattern.seq p q).Needs accepts := by
  intro s t ht
  obtain ⟨u, hu, ht⟩ := List.mem_flatMap.1 ht
  obtain ⟨read, hread, c, hc, haccepts⟩ := h s u hu
  obtain ⟨more, hmore⟩ := reads_of_mem_ways ht
  exact ⟨read ++ more, hread.trans hmore, c, List.mem_append_left _ hc, haccepts⟩

theorem seq_right (h : q.Needs accepts) (p : Pattern) : (Pattern.seq p q).Needs accepts := by
  intro s t ht
  obtain ⟨u, hu, ht⟩ := List.mem_flatMap.1 ht
  obtain ⟨read, hread⟩ := reads_of_mem_ways hu
  obtain ⟨more, hmore, c, hc, haccepts⟩ := h u t ht
  exact ⟨read ++ more, hread.trans hmore, c, List.mem_append_right _ hc, haccepts⟩

theorem group (h : p.Needs accepts) (name : String) : (Pattern.group name p).Needs accepts := by
  intro s t ht
  obtain ⟨u, hu, rfl⟩ := List.mem_map.1 ht
  exact h s u hu

theorem matchHead?_eq_none (h : p.Needs accepts) {cs : List Char}
    (hcs : ∀ c ∈ cs, accepts c = false) :
    p.matchHead? cs = none := by
  cases hmatch : p.matchHead? cs with
  | none => rfl
  | some m =>
    obtain ⟨t, ht, -⟩ := exists_way_of_matchAt? hmatch
    obtain ⟨read, hread, c, hc, haccepts⟩ := h _ t ht
    have hmem : c ∈ cs := by
      have hrest : cs = read ++ t.cursor.rest := hread.rest
      rw [hrest]
      exact List.mem_append_left _ hc
    rw [hcs c hmem] at haccepts
    cases haccepts

end Needs

end Pattern

end CodeSurvey
