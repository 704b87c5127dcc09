import CodeSurvey.Pattern
import CodeSurvey.Proofs.Text.LineIndex

/-!
# What a match reads

Each way to match a pattern reads a part of the text. A group that it closes is a part of what it
reads, and one that the body of the group can read. Where the body is a word, that is one character
of a class and then a run of another, so is the text of the group.
-/
namespace CodeSurvey

/-- Reading a text leads from the first place to the second. -/
structure Cursor.Reads (c : Cursor) (read : List Char) (d : Cursor) : Prop where
  rest : c.rest = read ++ d.rest
  offset : d.offset = c.offset + Text.size read

namespace Cursor.Reads

theorem refl (c : Cursor) : c.Reads [] c :=
  ⟨rfl, rfl⟩

theorem trans {c d e : Cursor} {read more : List Char} (h : c.Reads read d) (h' : d.Reads more e) :
    c.Reads (read ++ more) e := by
  constructor
  · rw [h.rest, h'.rest, List.append_assoc]
  · rw [h'.offset, h.offset, Text.size_append, Nat.add_assoc]

theorem le {c d : Cursor} {read : List Char} (h : c.Reads read d) : c.offset ≤ d.offset := by
  have hoffset := h.offset
  omega

theorem text {c d : Cursor} {read : List Char} (h : c.Reads read d) :
    (Capture.mk c d).text = read := by
  rw [Capture.text, h.offset, Nat.add_sub_cancel_left, h.rest, Text.takeBytes_append]

end Cursor.Reads

/-- The place lies in the text. -/
def Cursor.LiesIn (cs : List Char) (c : Cursor) : Prop :=
  ∃ before, cs = before ++ c.rest ∧ c.offset = Text.size before

theorem Cursor.liesIn_start (cs : List Char) : (start cs).LiesIn cs :=
  ⟨[], rfl, rfl⟩

/-- A run puts the places that it reaches in front of those reached before. -/
theorem Cursor.runs_eq_append (accepts : Char → Bool) (offset : Nat) (cs : List Char)
    (acc : List Cursor) :
    ∃ reached, runs accepts offset cs acc = reached ++ acc ∧ ∀ c ∈ reached, ∃ read, read ≠ [] ∧
      cs = read ++ c.rest ∧ c.offset = offset + Text.size read ∧ ∀ x ∈ read, accepts x = true := by
  induction cs generalizing offset acc with
  | nil => exact ⟨[], rfl, by simp⟩
  | cons x xs ih =>
    rw [runs]
    split
    · rename_i hx
      obtain ⟨reached, hruns, hreached⟩ :=
        ih (offset + x.utf8Size) (⟨offset + x.utf8Size, some x, xs⟩ :: acc)
      refine ⟨reached ++ [⟨offset + x.utf8Size, some x, xs⟩], by simp [hruns], ?_⟩
      intro c hc
      rcases List.mem_append.1 hc with hc | hc
      · obtain ⟨read, -, hrest, hoffset, haccepts⟩ := hreached c hc
        refine ⟨x :: read, by simp, by rw [hrest, List.cons_append], ?_, ?_⟩
        · rw [hoffset, Text.size_cons, Nat.add_assoc]
        · exact List.forall_mem_cons.2 ⟨hx, haccepts⟩
      · obtain rfl := List.mem_singleton.1 hc
        exact ⟨[x], by simp, rfl, rfl, by simpa using hx⟩
    · exact ⟨[], rfl, by simp⟩

theorem Cursor.mem_runs {accepts : Char → Bool} {offset : Nat} {cs : List Char} {acc : List Cursor}
    {c : Cursor} (h : c ∈ runs accepts offset cs acc) :
    c ∈ acc ∨ ∃ read, cs = read ++ c.rest ∧ c.offset = offset + Text.size read ∧
    ∀ x ∈ read, accepts x = true := by
  obtain ⟨reached, hruns, hreached⟩ := runs_eq_append accepts offset cs acc
  rw [hruns, List.mem_append] at h
  rcases h with h | h
  · obtain ⟨read, -, hread⟩ := hreached c h
    exact .inr ⟨read, hread⟩
  · exact .inl h

namespace Pattern

/-! ### Ways -/

theorem reads_of_mem_runs {accepts : Char → Bool} {s t : Progress}
    (h : ∃ c ∈ Cursor.runs accepts s.cursor.offset s.cursor.rest [s.cursor],
      { s with cursor := c } = t) :
    t.groups = s.groups ∧ ∃ read, s.cursor.Reads read t.cursor ∧ ∀ x ∈ read, accepts x = true := by
  obtain ⟨c, hc, rfl⟩ := h
  refine ⟨rfl, ?_⟩
  rcases Cursor.mem_runs hc with hmem | ⟨read, hrest, hoffset, haccepts⟩
  · obtain rfl := List.mem_singleton.1 hmem
    exact ⟨[], .refl _, by simp⟩
  · exact ⟨read, ⟨hrest, hoffset⟩, haccepts⟩

theorem reads_of_mem_ways_run {accepts : Char → Bool} {s t : Progress}
    (h : t ∈ ways (.run accepts) s) :
    t.groups = s.groups ∧ ∃ read, s.cursor.Reads read t.cursor ∧ ∀ x ∈ read, accepts x = true :=
  reads_of_mem_runs (List.mem_map.1 h)

theorem reads_of_mem_ways_char {accepts : Char → Bool} {s t : Progress}
    (h : t ∈ ways (.char accepts) s) :
    t.groups = s.groups ∧ ∃ x, s.cursor.Reads [x] t.cursor ∧ accepts x = true := by
  rw [ways] at h
  cases hstep : s.cursor.step? accepts with
  | none => simp [hstep] at h
  | some c =>
    obtain rfl : t = { s with cursor := c } := by simpa [hstep] using h
    rw [Cursor.step?] at hstep
    cases hrest : s.cursor.rest with
    | nil => simp [hrest] at hstep
    | cons x xs =>
      by_cases hx : accepts x = true
      · obtain rfl : c = _ := by simpa [hrest, hx, eq_comm] using hstep
        exact ⟨rfl, x, ⟨hrest, rfl⟩, hx⟩
      · simp [hrest, hx] at hstep

/-- What holds of staying, and of one body followed by what holds, holds of every repetition. -/
theorem repeated_induction {body : Progress → List Progress} {R : Progress → Progress → Prop}
    (hstay : ∀ s, R s s) (hstep : ∀ s t u, t ∈ body s → R t u → R s u) {n : Nat} {s u : Progress}
    (h : u ∈ repeated body n s) : R s u := by
  induction n generalizing s with
  | zero =>
    obtain rfl := List.mem_singleton.1 h
    exact hstay u
  | succ n ih =>
    rw [repeated, List.mem_append, List.mem_flatMap] at h
    rcases h with ⟨t, ht, hu⟩ | h
    · exact hstep s t u (List.mem_filter.1 ht).1 (ih hu)
    · obtain rfl := List.mem_singleton.1 h
      exact hstay u

theorem reads_of_mem_ways {p : Pattern} {s t : Progress} (h : t ∈ ways p s) :
    ∃ read, s.cursor.Reads read t.cursor := by
  induction p generalizing s t with
  | done =>
    obtain rfl := List.mem_singleton.1 h
    exact ⟨[], .refl _⟩
  | char accepts =>
    obtain ⟨-, x, hread, -⟩ := reads_of_mem_ways_char h
    exact ⟨[x], hread⟩
  | run accepts =>
    obtain ⟨-, read, hread, -⟩ := reads_of_mem_ways_run h
    exact ⟨read, hread⟩
  | shortRun accepts =>
    rw [ways, List.mem_map] at h
    obtain ⟨-, read, hread, -⟩ := reads_of_mem_runs (by simpa only [List.mem_reverse] using h)
    exact ⟨read, hread⟩
  | seq p q ihp ihq =>
    obtain ⟨u, hu, ht⟩ := List.mem_flatMap.1 h
    obtain ⟨read, hread⟩ := ihp hu
    obtain ⟨more, hmore⟩ := ihq ht
    exact ⟨read ++ more, hread.trans hmore⟩
  | alt p q ihp ihq =>
    rcases List.mem_append.1 h with h | h
    · exact ihp h
    · exact ihq h
  | many body ih =>
    refine repeated_induction (R := fun s t => ∃ read, s.cursor.Reads read t.cursor)
      (fun s => ⟨[], .refl _⟩) (fun s t u ht hu => ?_) h
    obtain ⟨read, hread⟩ := ih ht
    obtain ⟨more, hmore⟩ := hu
    exact ⟨read ++ more, hread.trans hmore⟩
  | group name body ih =>
    obtain ⟨u, hu, rfl⟩ := List.mem_map.1 h
    obtain ⟨read, hread⟩ := ih hu
    exact ⟨read, hread⟩
  | textEnd | lineStart | wordEdge =>
    rw [ways] at h
    split at h
    · obtain rfl := List.mem_singleton.1 h
      exact ⟨[], .refl _⟩
    · cases h

/-! ### Groups -/

/-- The groups of a pattern with their bodies. -/
def groupBodies : Pattern → List (String × Pattern)
  | .seq p q => p.groupBodies ++ q.groupBodies
  | .alt p q => p.groupBodies ++ q.groupBodies
  | .many body => body.groupBodies
  | .group name body => (name, body) :: body.groupBodies
  | _ => []

/-- On the way from `c` to `d`, the body of the group reads the capture. -/
structure Captured (bodies : List (String × Pattern)) (c d : Cursor) (g : String × Capture) :
    Prop where
  body : ∃ body s t, (g.1, body) ∈ bodies ∧ t ∈ ways body s ∧ s.cursor = g.2.start ∧
    t.cursor = g.2.stop
  before : ∃ read, c.Reads read g.2.start
  after : ∃ read, g.2.stop.Reads read d

namespace Captured

variable {bodies more : List (String × Pattern)} {c d e : Cursor} {g : String × Capture}
  {read : List Char}

theorem mono (h : Captured bodies c d g) (hsub : bodies ⊆ more) : Captured more c d g := by
  obtain ⟨body, s, t, hbody, hways⟩ := h.body
  exact ⟨⟨body, s, t, hsub hbody, hways⟩, h.before, h.after⟩

theorem read_before (h : Captured bodies d e g) (hread : c.Reads read d) :
    Captured bodies c e g := by
  obtain ⟨first, hfirst⟩ := h.before
  exact ⟨h.body, ⟨read ++ first, hread.trans hfirst⟩, h.after⟩

theorem read_after (h : Captured bodies c d g) (hread : d.Reads read e) :
    Captured bodies c e g := by
  obtain ⟨last, hlast⟩ := h.after
  exact ⟨h.body, h.before, ⟨last ++ read, hlast.trans hread⟩⟩

end Captured

/-- Every group that a way has closed was closed before or is captured on the way. -/
theorem captured_of_mem_ways {p : Pattern} {s t : Progress} (h : t ∈ ways p s)
    {g : String × Capture} (hg : g ∈ t.groups) :
      g ∈ s.groups ∨ Captured p.groupBodies s.cursor t.cursor g := by
  induction p generalizing s t with
  | done =>
    obtain rfl := List.mem_singleton.1 h
    exact .inl hg
  | char accepts => exact .inl ((reads_of_mem_ways_char h).1 ▸ hg)
  | run accepts => exact .inl ((reads_of_mem_ways_run h).1 ▸ hg)
  | shortRun accepts =>
    rw [ways, List.mem_map] at h
    exact .inl ((reads_of_mem_runs (by simpa only [List.mem_reverse] using h)).1 ▸ hg)
  | seq p q ihp ihq =>
    obtain ⟨u, hu, ht⟩ := List.mem_flatMap.1 h
    obtain ⟨read, hread⟩ := reads_of_mem_ways hu
    obtain ⟨more, hmore⟩ := reads_of_mem_ways ht
    rcases ihq ht hg with hg | hg
    · refine (ihp hu hg).imp_right fun hg => ?_
      exact (hg.mono (List.subset_append_left _ _)).read_after hmore
    · exact .inr ((hg.mono (List.subset_append_right _ _)).read_before hread)
  | alt p q ihp ihq =>
    rcases List.mem_append.1 h with h | h
    · exact (ihp h hg).imp_right fun hg => hg.mono (List.subset_append_left _ _)
    · exact (ihq h hg).imp_right fun hg => hg.mono (List.subset_append_right _ _)
  | many body ih =>
    have hall : (∃ read, s.cursor.Reads read t.cursor) ∧
        (g ∈ t.groups → g ∈ s.groups ∨ Captured body.groupBodies s.cursor t.cursor g) := by
      refine repeated_induction (R := fun s t => (∃ read, s.cursor.Reads read t.cursor) ∧
        (g ∈ t.groups → g ∈ s.groups ∨ Captured body.groupBodies s.cursor t.cursor g))
        (fun s => ⟨⟨[], .refl _⟩, .inl⟩) (fun s t u ht hu => ?_) h
      obtain ⟨read, hread⟩ := reads_of_mem_ways ht
      obtain ⟨⟨more, hmore⟩, hgroups⟩ := hu
      refine ⟨⟨read ++ more, hread.trans hmore⟩, fun hg => ?_⟩
      rcases hgroups hg with hg | hg
      · exact (ih ht hg).imp_right fun hg => hg.read_after hmore
      · exact .inr (hg.read_before hread)
    exact hall.2 hg
  | group name body ih =>
    obtain ⟨u, hu, rfl⟩ := List.mem_map.1 h
    rcases List.mem_cons.1 hg with rfl | hg
    · exact .inr ⟨⟨body, s, u, List.mem_cons_self, hu, rfl, rfl⟩, ⟨[], .refl _⟩, ⟨[], .refl _⟩⟩
    · exact (ih hu hg).imp_right fun hg => hg.mono (List.subset_cons_self _ _)
  | textEnd | lineStart | wordEdge =>
    rw [ways] at h
    split at h
    · obtain rfl := List.mem_singleton.1 h
      exact .inl hg
    · cases h

/-! ### Matches -/

theorem exists_way_of_matchAt? {p : Pattern} {c : Cursor} {m : Match} (h : p.matchAt? c = some m) :
    ∃ t ∈ ways p ⟨c, []⟩, m = ⟨⟨c, t.cursor⟩, t.groups⟩ := by
  obtain ⟨t, ht, rfl⟩ := Option.map_eq_some_iff.1 h
  exact ⟨t, List.mem_of_mem_head? ht, rfl⟩

theorem captured_of_matchAt? {p : Pattern} {c : Cursor} {m : Match} (h : p.matchAt? c = some m)
    {name : String} {capture : Capture} (hg : m.group? name = some capture) :
    Captured p.groupBodies c m.whole.stop (name, capture) := by
  obtain ⟨t, ht, rfl⟩ := exists_way_of_matchAt? h
  obtain ⟨before, after, hgroups, -⟩ := List.lookup_eq_some_iff.1 hg
  have hmem : (name, capture) ∈ t.groups := by
    rw [show t.groups = _ from hgroups]
    simp
  exact (captured_of_mem_ways ht hmem).resolve_left (by simp)

/-- Every group called `name` holds a word: a character of the class `first`, then a run of the
class `more`. -/
def NamesWord (p : Pattern) (first more : Char → Bool) : Prop :=
  ∀ body, ("name", body) ∈ p.groupBodies → body = .seq (.char first) (.run more)

/-- The group called `name` stands in the text, where the capture says. -/
theorem NamesWord.exists_name {p : Pattern} {first more : Char → Bool} (hp : p.NamesWord first more)
    {cs : List Char} {c : Cursor} (hc : c.LiesIn cs) {m : Match} (h : p.matchAt? c = some m)
    {name : Capture} (hname : m.group? "name" = some name) :
    ∃ before x xs after, cs = before ++ (x :: xs ++ after) ∧ name.offset = Text.size before ∧
      name.text = x :: xs ∧
      first x = true ∧ ∀ y ∈ xs, more y = true := by
  obtain ⟨⟨body, s, t, hbody, ht, hstart, hstop⟩, ⟨lead, hlead⟩, -⟩ := captured_of_matchAt? h hname
  obtain rfl := hp body hbody
  obtain ⟨before, rfl, hoffset⟩ := hc
  obtain ⟨u, hu, ht⟩ := List.mem_flatMap.1 ht
  obtain ⟨-, x, hx, hfirst⟩ := reads_of_mem_ways_char hu
  obtain ⟨-, xs, hxs, hmore⟩ := reads_of_mem_ways_run ht
  have hword : name.start.Reads (x :: xs) name.stop := by
    rw [← hstart, ← hstop]
    exact hx.trans hxs
  refine ⟨before ++ lead, x, xs, name.stop.rest, ?_, ?_, hword.text, hfirst, hmore⟩
  · rw [hlead.rest, ← List.append_assoc]
    exact congrArg _ hword.rest
  · rw [Text.size_append, ← hoffset]
    exact hlead.offset

/-- The text of the group called `name`, in a match at the start of a text. -/
theorem NamesWord.name_within {p : Pattern} {first more : Char → Bool} (hp : p.NamesWord first more)
    {cs : List Char} {m : Match} (h : p.matchHead? cs = some m) :
    m.text "name" <:+: cs ∧ ∀ x ∈ m.text "name", first x = true ∨ more x = true := by
  rw [Match.text]
  cases hname : m.group? "name" with
  | none => simp
  | some name =>
    obtain ⟨before, x, xs, after, hcs, -, htext, hfirst, hmore⟩ :=
      hp.exists_name (Cursor.liesIn_start cs) h hname
    rw [Option.elim_some, htext]
    refine ⟨⟨before, after, by rw [hcs, List.append_assoc]⟩, ?_⟩
    rintro y (_ | ⟨_, hy⟩)
    · exact .inl hfirst
    · exact .inr (hmore y hy)

/-! ### All matches of a text -/

theorem mem_findAllFrom {p : Pattern} {resume offset : Nat} {prior : Option Char} {cs : List Char}
    {m : Match} (h : m ∈ findAllFrom p resume offset prior cs) :
    p.matchAt? m.whole.start = some m ∧ resume ≤ m.whole.start.offset ∧
      ∃ before, cs = before ++ m.whole.start.rest ∧
      m.whole.start.offset = offset + Text.size before := by
  induction cs generalizing resume offset prior with
  | nil => cases h
  | cons x xs ih =>
    have hlater : ∀ {resume' : Nat}, m ∈ findAllFrom p resume' (offset + x.utf8Size) (some x) xs →
        p.matchAt? m.whole.start = some m ∧ resume' ≤ m.whole.start.offset ∧
          ∃ before, x :: xs = before ++ m.whole.start.rest ∧
          m.whole.start.offset = offset + Text.size before := by
      intro resume' hm
      obtain ⟨hmatch, hresume, before, hrest, hoffset⟩ := ih hm
      refine ⟨hmatch, hresume, x :: before, by rw [hrest, List.cons_append], ?_⟩
      rw [hoffset, Text.size_cons, Nat.add_assoc]
    rw [findAllFrom] at h
    by_cases hresume : offset < resume
    · rw [if_pos hresume] at h
      exact hlater h
    · rw [if_neg hresume] at h
      cases hfound : p.matchAt? ⟨offset, prior, x :: xs⟩ with
      | none =>
        rw [hfound] at h
        exact hlater h
      | some first =>
        obtain ⟨t, ht, rfl⟩ := exists_way_of_matchAt? hfound
        rw [hfound] at h
        rcases List.mem_cons.1 h with rfl | h
        · exact ⟨hfound, Nat.not_lt.1 hresume, [], rfl, rfl⟩
        · obtain ⟨hmatch, hstop, hbefore⟩ := hlater h
          obtain ⟨read, hread⟩ := reads_of_mem_ways ht
          have hle := hread.le
          refine ⟨hmatch, ?_, hbefore⟩
          dsimp only at hle hstop
          omega

theorem matchAt?_of_mem_findAll {p : Pattern} {cs : List Char} {m : Match} (h : m ∈ p.findAll cs) :
    p.matchAt? m.whole.start = some m ∧ m.whole.start.LiesIn cs := by
  obtain ⟨hmatch, -, before, hrest, hoffset⟩ := mem_findAllFrom h
  exact ⟨hmatch, before, hrest, by rw [hoffset, Nat.zero_add]⟩

/-- A match starts where the ones before it have ended. -/
theorem pairwise_findAll (p : Pattern) (cs : List Char) :
    (p.findAll cs).Pairwise fun m n => m.whole.stop.offset ≤ n.whole.start.offset := by
  have hfrom : ∀ resume offset prior,
      (findAllFrom p resume offset prior cs).Pairwise fun m n =>
        m.whole.stop.offset ≤ n.whole.start.offset := by
    induction cs with
    | nil => exact fun _ _ _ => .nil
    | cons x xs ih =>
      intro resume offset prior
      rw [findAllFrom]
      split
      · exact .cons (fun n hn => (mem_findAllFrom hn).2.1) (ih _ _ _)
      · exact ih _ _ _
  exact hfrom 0 0 none

/-- The groups called `name` come in the order of the text. -/
theorem pairwise_name_offset (p : Pattern) (cs : List Char) :
    ((p.findAll cs).filterMap fun m => m.group? "name").Pairwise fun a b =>
      a.offset ≤ b.offset := by
  have hbounds : ∀ {m : Match} {name : Capture}, m ∈ p.findAll cs → m.group? "name" = some name →
      m.whole.start.offset ≤ name.start.offset ∧ name.start.offset ≤ m.whole.stop.offset := by
    intro m name hm hname
    obtain ⟨⟨body, s, t, -, ht, hstart, hstop⟩, ⟨_, hbefore⟩, ⟨_, hafter⟩⟩ :=
      captured_of_matchAt? (matchAt?_of_mem_findAll hm).1 hname
    obtain ⟨_, hread⟩ := reads_of_mem_ways ht
    rw [hstart, hstop] at hread
    exact ⟨hbefore.le, Nat.le_trans hread.le hafter.le⟩
  rw [List.pairwise_filterMap]
  refine (pairwise_findAll p cs).imp_of_mem fun {m n} hm hn hmn a ha b hb => ?_
  exact Nat.le_trans (Nat.le_trans (hbounds hm ha).2 hmn) (hbounds hn hb).1

end Pattern

end CodeSurvey
