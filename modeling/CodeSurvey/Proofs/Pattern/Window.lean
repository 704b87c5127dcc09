import CodeSurvey.Proofs.Pattern.Capture
import Mathlib.Data.List.Forall2

/-!
# What a match depends on

A way to match that ends at some offset has looked at the text in front of that offset, and at no
more than one character on either side of it. So two texts that read the same over a stretch have
the same ways to match that stay within the stretch, and in the same order.
-/
namespace CodeSurvey

theorem Text.takeBytes_append_of_le {n : Nat} {cs : List Char} (h : n ≤ size cs)
    (rest : List Char) :
    takeBytes n (cs ++ rest) = takeBytes n cs := by
  induction cs generalizing n with
  | nil =>
    obtain rfl : n = 0 := Nat.le_zero.1 h
    cases rest <;> rfl
  | cons c cs ih =>
    rw [size_cons] at h
    rw [List.cons_append, takeBytes, takeBytes, ih (by omega)]

/-- From both places on the texts read the same up to the offset `stop`, and what stands next to
this stretch looks the same at the start of a line and at the edge of a word. -/
structure Cursor.Agree (stop : Nat) (c d : Cursor) : Prop where
  offset_eq : d.offset = c.offset
  lineStart_eq : d.atLineStart = c.atLineStart
  prior_eq : d.prior.any Text.isWord = c.prior.any Text.isWord
  stretch : ∃ shared rest rest', c.rest = shared ++ rest ∧ d.rest = shared ++ rest' ∧
    c.offset + Text.size shared = stop ∧ rest'.head?.any Text.isWord = rest.head?.any Text.isWord

namespace Cursor

variable {accepts : Char → Bool} {stop : Nat} {c d : Cursor}

theorem Agree.symm (h : c.Agree stop d) : d.Agree stop c := by
  obtain ⟨shared, rest, rest', hc, hd, hstop, hword⟩ := h.stretch
  exact ⟨h.offset_eq.symm, h.lineStart_eq.symm, h.prior_eq.symm, shared, rest', rest, hd, hc,
    h.offset_eq ▸ hstop, hword.symm⟩

theorem Agree.le (h : c.Agree stop d) : c.offset ≤ stop := by
  obtain ⟨shared, rest, rest', -, -, hstop, -⟩ := h.stretch
  omega

theorem agree_cons {offset : Nat} {x : Char} {shared rest rest' : List Char}
    (hstop : offset + Text.size shared = stop)
    (hword : rest'.head?.any Text.isWord = rest.head?.any Text.isWord) :
    Agree stop ⟨offset, some x, shared ++ rest⟩ ⟨offset, some x, shared ++ rest'⟩ :=
  ⟨rfl, rfl, rfl, shared, rest, rest', rfl, rfl, hstop, hword⟩

theorem Agree.atWordEdge_eq (h : c.Agree stop d) : d.atWordEdge = c.atWordEdge := by
  obtain ⟨shared, rest, rest', hc, hd, -, hword⟩ := h.stretch
  rw [atWordEdge, atWordEdge, h.prior_eq, hc, hd]
  cases shared with
  | nil => rw [List.nil_append, List.nil_append, hword]
  | cons x shared => rfl

theorem Agree.text_eq {c' d' : Cursor} (h : c.Agree stop d) (h' : c'.Agree stop d') :
    (Capture.mk d d').text = (Capture.mk c c').text := by
  obtain ⟨shared, rest, rest', hc, hd, hstop, -⟩ := h.stretch
  have hle : c'.offset - c.offset ≤ Text.size shared := by
    have hstop' := h'.le
    omega
  simp only [Capture.text, h.offset_eq, h'.offset_eq, hc, hd, Text.takeBytes_append_of_le hle]

theorem runs_agree (accepts : Char → Bool) {shared rest rest' : List Char} {offset : Nat}
    (hstop : offset + Text.size shared = stop)
    (hword : rest'.head?.any Text.isWord = rest.head?.any Text.isWord) {acc acc' : List Cursor}
    (hacc : List.Forall₂ (Agree stop) (acc.filter (·.offset ≤ stop))
      (acc'.filter (·.offset ≤ stop))) :
    List.Forall₂ (Agree stop) ((runs accepts offset (shared ++ rest) acc).filter (·.offset ≤ stop))
      ((runs accepts offset (shared ++ rest') acc').filter (·.offset ≤ stop)) := by
  induction shared generalizing offset acc acc' with
  | nil =>
    -- what a run reaches behind the stretch does not count
    have hbehind : ∀ (cs : List Char) (acc : List Cursor),
        (runs accepts offset cs acc).filter (·.offset ≤ stop) = acc.filter (·.offset ≤ stop) := by
      intro cs acc
      obtain ⟨past, hruns, hpast⟩ := runs_eq_append accepts offset cs acc
      have hnone : past.filter (·.offset ≤ stop) = [] := by
        rw [List.filter_eq_nil_iff]
        intro c hc
        obtain ⟨read, hne, -, hoffset, -⟩ := hpast c hc
        obtain ⟨x, read, rfl⟩ := List.exists_cons_of_ne_nil hne
        have hpos := x.utf8Size_pos
        rw [Text.size_nil] at hstop
        rw [Text.size_cons] at hoffset
        simp only [decide_eq_true_eq]
        omega
      rw [hruns, List.filter_append, hnone, List.nil_append]
    rw [List.nil_append, List.nil_append, hbehind, hbehind]
    exact hacc
  | cons x shared ih =>
    rw [Text.size_cons] at hstop
    have hnext : offset + x.utf8Size + Text.size shared = stop := by omega
    rw [List.cons_append, List.cons_append, runs, runs]
    split
    · refine ih hnext ?_
      rw [List.filter_cons_of_pos (by simp only [decide_eq_true_eq]; omega),
        List.filter_cons_of_pos (by simp only [decide_eq_true_eq]; omega)]
      exact .cons (agree_cons hnext hword) hacc
    · exact hacc

end Cursor

namespace Pattern

/-- The group has the same name, the same place and the same text. -/
def GroupAgree (g h : String × Capture) : Prop :=
  h.1 = g.1 ∧ h.2.offset = g.2.offset ∧ h.2.text = g.2.text

structure Progress.Agree (stop : Nat) (s t : Progress) : Prop where
  cursor : s.cursor.Agree stop t.cursor
  groups : List.Forall₂ GroupAgree s.groups t.groups

/-- The ways that end at the offset `stop` or in front of it. -/
def within (stop : Nat) (ways : List Progress) : List Progress :=
  ways.filter (·.cursor.offset ≤ stop)

/-- Nothing is repeated, and the end of the text plays no part. -/
def isPlain : Pattern → Bool
  | .seq p q => p.isPlain && q.isPlain
  | .alt p q => p.isPlain && q.isPlain
  | .group _ p => p.isPlain
  | .many _ | .textEnd => false
  | _ => true

variable {p q : Pattern} {stop : Nat} {s t : Progress}

theorem Progress.Agree.withCursor {c d : Cursor} (h : s.Agree stop t) (hcursor : c.Agree stop d) :
    Progress.Agree stop { s with cursor := c } { t with cursor := d } :=
  ⟨hcursor, h.groups⟩

theorem within_singleton (h : s.Agree stop t) :
    List.Forall₂ (Progress.Agree stop) (within stop [s]) (within stop [t]) := by
  have hs := h.cursor.le
  have ht := h.cursor.symm.le
  rw [within, within, List.filter_cons_of_pos (by simpa using hs),
    List.filter_cons_of_pos (by simpa using ht)]
  exact .cons h .nil

/-- What ends within the stretch has stayed in it all the way. -/
theorem within_seq (p q : Pattern) (stop : Nat) (s : Progress) :
    within stop (ways (.seq p q) s) = (within stop (ways p s)).flatMap fun u => within stop
      (ways q u) := by
  rw [ways, within, within]
  induction ways p s with
  | nil => rfl
  | cons u us ih =>
    rw [List.flatMap_cons, List.filter_append, ih]
    by_cases hu : u.cursor.offset ≤ stop
    · rw [List.filter_cons_of_pos (by simpa using hu), List.flatMap_cons]
      rfl
    · have hnone : (ways q u).filter (·.cursor.offset ≤ stop) = [] := by
        rw [List.filter_eq_nil_iff]
        intro v hv
        obtain ⟨read, hread⟩ := reads_of_mem_ways hv
        have hle := hread.le
        simp only [decide_eq_true_eq]
        omega
      rw [List.filter_cons_of_neg (by simpa using hu), hnone, List.nil_append]

theorem within_char (accepts : Char → Bool) (h : s.Agree stop t) :
    List.Forall₂ (Progress.Agree stop) (within stop (ways (.char accepts) s))
      (within stop (ways (.char accepts) t)) := by
  obtain ⟨shared, rest, rest', hs, ht, hstop, hword⟩ := h.cursor.stretch
  cases shared with
  | nil =>
    -- the character stands behind the stretch
    have hnone : ∀ u : Progress, stop = u.cursor.offset →
        within stop (ways (.char accepts) u) = [] := by
      rintro u rfl
      rw [within, List.filter_eq_nil_iff]
      intro v hv
      obtain ⟨-, x, hread, -⟩ := reads_of_mem_ways_char hv
      have hoffset := hread.offset
      have hpos := x.utf8Size_pos
      simp only [Text.size_cons, Text.size_nil] at hoffset
      simp only [decide_eq_true_eq]
      omega
    have hs' : stop = s.cursor.offset := hstop.symm
    rw [hnone s hs', hnone t (hs'.trans h.cursor.offset_eq.symm)]
    exact .nil
  | cons x shared =>
    rw [Text.size_cons] at hstop
    simp only [ways, Cursor.step?, hs, ht, List.cons_append]
    by_cases hx : accepts x = true
    · simp only [hx, if_true]
      refine within_singleton (h.withCursor ?_)
      rw [h.cursor.offset_eq]
      exact Cursor.agree_cons (by omega) hword
    · simp only [hx]
      exact .nil

theorem runs_within (accepts : Char → Bool) {c d : Cursor} (h : c.Agree stop d) :
    List.Forall₂ (Cursor.Agree stop) ((Cursor.runs accepts c.offset c.rest [c]).filter
      (·.offset ≤ stop))
      ((Cursor.runs accepts d.offset d.rest [d]).filter (·.offset ≤ stop)) := by
  obtain ⟨shared, rest, rest', hc, hd, hstop, hword⟩ := h.stretch
  rw [hc, hd, h.offset_eq]
  refine Cursor.runs_agree accepts hstop hword ?_
  rw [List.filter_cons_of_pos (by simpa using h.le),
    List.filter_cons_of_pos (by simpa using h.symm.le)]
  exact .cons h .nil

theorem within_map_cursor (h : s.Agree stop t) {cs ds : List Cursor}
    (hcursors : List.Forall₂ (Cursor.Agree stop) (cs.filter (·.offset ≤ stop))
      (ds.filter (·.offset ≤ stop))) :
    List.Forall₂ (Progress.Agree stop) (within stop (cs.map fun c => { s with cursor := c }))
      (within stop (ds.map fun d => { t with cursor := d })) := by
  rw [within, within, List.filter_map, List.filter_map]
  exact List.rel_map (fun _ _ hcursor => h.withCursor hcursor) hcursors

theorem within_group {name : String} (h : s.Agree stop t)
    (hways : List.Forall₂ (Progress.Agree stop) (within stop (ways p s)) (within stop (ways p t))) :
    List.Forall₂ (Progress.Agree stop) (within stop (ways (.group name p) s))
      (within stop (ways (.group name p) t)) := by
  rw [ways, ways, within, within, List.filter_map, List.filter_map]
  refine List.rel_map (fun u v huv => ⟨huv.cursor, .cons ?_ huv.groups⟩) hways
  exact ⟨rfl, h.cursor.offset_eq, h.cursor.text_eq huv.cursor⟩

theorem ways_agree (hp : p.isPlain) (h : s.Agree stop t) :
    List.Forall₂ (Progress.Agree stop) (within stop (ways p s)) (within stop (ways p t)) := by
  induction p generalizing s t with
  | done => exact within_singleton h
  | char accepts => exact within_char accepts h
  | run accepts => exact within_map_cursor h (runs_within accepts h.cursor)
  | shortRun accepts =>
    refine within_map_cursor h ?_
    rw [List.filter_reverse, List.filter_reverse]
    exact List.rel_reverse (runs_within accepts h.cursor)
  | seq p q ihp ihq =>
    rw [isPlain, Bool.and_eq_true] at hp
    rw [within_seq, within_seq]
    exact List.rel_flatMap (ihp hp.1 h) fun u v huv => ihq hp.2 huv
  | alt p q ihp ihq =>
    rw [isPlain, Bool.and_eq_true] at hp
    rw [ways, ways, within, within, List.filter_append, List.filter_append]
    exact List.rel_append (ihp hp.1 h) (ihq hp.2 h)
  | many body => cases hp
  | group name body ih => exact within_group h (ih hp h)
  | textEnd => cases hp
  | lineStart =>
    rw [ways, ways, h.cursor.lineStart_eq]
    split
    · exact within_singleton h
    · exact .nil
  | wordEdge =>
    rw [ways, ways, h.cursor.atWordEdge_eq]
    split
    · exact within_singleton h
    · exact .nil

/-! ### First characters -/

/-- The pattern can match without reading anything. -/
def nullable : Pattern → Bool
  | .char _ => false
  | .seq p q => p.nullable && q.nullable
  | .alt p q => p.nullable || q.nullable
  | .group _ p => p.nullable
  | _ => true

/-- What the pattern reads can start with the character. -/
def opensWith (x : Char) : Pattern → Bool
  | .char accepts | .run accepts | .shortRun accepts => accepts x
  | .seq p q => p.opensWith x || (p.nullable && q.opensWith x)
  | .alt p q => p.opensWith x || q.opensWith x
  | .many p | .group _ p => p.opensWith x
  | _ => false

/-- Something that the pattern can read, as far as its first character tells. -/
structure OpensAs (p : Pattern) (read : List Char) : Prop where
  nullable : read = [] → p.nullable = true
  opens : ∀ x xs, read = x :: xs → p.opensWith x = true

theorem opensAs_run {accepts : Char → Bool} {read : List Char} (h : ∀ x ∈ read, accepts x = true) :
    (Pattern.run accepts).OpensAs read ∧ (Pattern.shortRun accepts).OpensAs read := by
  have hopens : ∀ x xs, read = x :: xs → accepts x = true := by
    rintro x xs rfl
    exact h x List.mem_cons_self
  exact ⟨⟨fun _ => rfl, hopens⟩, ⟨fun _ => rfl, hopens⟩⟩

theorem OpensAs.seq {read more : List Char} (hp : p.OpensAs read) (hq : q.OpensAs more) :
    (Pattern.seq p q).OpensAs (read ++ more) := by
  constructor
  · intro hnil
    obtain ⟨hread, hmore⟩ := List.append_eq_nil_iff.1 hnil
    simp [Pattern.nullable, hp.nullable hread, hq.nullable hmore]
  · intro x xs hxs
    cases read with
    | nil => simp [opensWith, hp.nullable rfl, hq.opens x xs hxs]
    | cons y ys =>
      obtain ⟨rfl, -⟩ := List.cons.inj hxs
      simp [opensWith, hp.opens y ys rfl]

theorem opensAs_of_mem_ways (h : t ∈ ways p s) :
    ∃ read, s.cursor.Reads read t.cursor ∧ p.OpensAs read := by
  have hnothing : ∀ {p : Pattern} {s : Progress}, p.nullable = true →
      ∃ read, s.cursor.Reads read s.cursor ∧ p.OpensAs read :=
    fun hnull => ⟨[], .refl _, fun _ => hnull, by simp⟩
  induction p generalizing s t with
  | done =>
    obtain rfl := List.mem_singleton.1 h
    exact hnothing rfl
  | char accepts =>
    obtain ⟨-, x, hread, hx⟩ := reads_of_mem_ways_char h
    refine ⟨[x], hread, by simp, ?_⟩
    rintro y ys hys
    obtain ⟨rfl, -⟩ := List.cons.inj hys
    exact hx
  | run accepts =>
    obtain ⟨-, read, hread, haccepts⟩ := reads_of_mem_ways_run h
    exact ⟨read, hread, (opensAs_run haccepts).1⟩
  | shortRun accepts =>
    rw [ways, List.mem_map] at h
    obtain ⟨-, read, hread, haccepts⟩ :=
      reads_of_mem_runs (by simpa only [List.mem_reverse] using h)
    exact ⟨read, hread, (opensAs_run haccepts).2⟩
  | seq p q ihp ihq =>
    obtain ⟨u, hu, ht⟩ := List.mem_flatMap.1 h
    obtain ⟨read, hread, hp⟩ := ihp hu
    obtain ⟨more, hmore, hq⟩ := ihq ht
    exact ⟨read ++ more, hread.trans hmore, hp.seq hq⟩
  | alt p q ihp ihq =>
    rcases List.mem_append.1 h with h | h
    · obtain ⟨read, hread, hp⟩ := ihp h
      exact ⟨read, hread, fun hnil => by simp [nullable, hp.nullable hnil],
        fun x xs hxs => by simp [opensWith, hp.opens x xs hxs]⟩
    · obtain ⟨read, hread, hq⟩ := ihq h
      exact ⟨read, hread, fun hnil => by simp [nullable, hq.nullable hnil],
        fun x xs hxs => by simp [opensWith, hq.opens x xs hxs]⟩
  | many body ih =>
    refine repeated_induction (R := fun s t => ∃ read, s.cursor.Reads read t.cursor ∧
      (Pattern.many body).OpensAs read)
      (fun s => hnothing rfl) (fun s t u ht hu => ?_) h
    obtain ⟨read, hread, hp⟩ := ih ht
    obtain ⟨more, hmore, hq⟩ := hu
    refine ⟨read ++ more, hread.trans hmore, fun _ => rfl, fun x xs hxs => ?_⟩
    cases read with
    | nil => exact hq.opens x xs hxs
    | cons y ys =>
      obtain ⟨rfl, -⟩ := List.cons.inj hxs
      exact hp.opens y ys rfl
  | group name body ih =>
    obtain ⟨u, hu, rfl⟩ := List.mem_map.1 h
    obtain ⟨read, hread, hp⟩ := ih hu
    exact ⟨read, hread, hp.nullable, hp.opens⟩
  | textEnd | lineStart | wordEdge =>
    rw [ways] at h
    split at h
    · obtain rfl := List.mem_singleton.1 h
      exact hnothing rfl
    · cases h

theorem opensAs_of_matchAt? {c : Cursor} {m : Match} (h : p.matchAt? c = some m) :
    c.Reads m.whole.text m.whole.stop ∧ p.OpensAs m.whole.text := by
  obtain ⟨t, ht, rfl⟩ := exists_way_of_matchAt? h
  obtain ⟨read, hread, hopens⟩ := opensAs_of_mem_ways ht
  have htext : (Capture.mk c t.cursor).text = read := hread.text
  dsimp only at hread ⊢
  rw [htext]
  exact ⟨hread, hopens⟩

/-! ### Matches -/

/-- The match takes the same place and reads the same. -/
structure Match.Same (m n : Match) : Prop where
  start_eq : n.whole.offset = m.whole.offset
  stop_eq : n.whole.stop.offset = m.whole.stop.offset
  text_eq : n.whole.text = m.whole.text
  group_eq : ∀ name, n.text name = m.text name

theorem text_lookup_eq {gs hs : List (String × Capture)} (h : List.Forall₂ GroupAgree gs hs)
    (name : String) :
    (hs.lookup name).elim [] Capture.text = (gs.lookup name).elim [] Capture.text := by
  induction h with
  | nil => rfl
  | cons hgh _ ih =>
    obtain ⟨hname, -, htext⟩ := hgh
    rw [List.lookup_cons, List.lookup_cons, hname]
    split
    · exact htext
    · exact ih

/-- A match within the stretch shows that there is one in the other text, too, and they are the same
unless that one goes on behind the stretch. -/
theorem matchAt?_agree (hp : p.isPlain) {c d : Cursor} (h : c.Agree stop d) {m : Match}
    (hm : p.matchAt? c = some m) (hstop : m.whole.stop.offset ≤ stop) :
    ∃ n, p.matchAt? d = some n ∧ (n.whole.stop.offset ≤ stop → m.Same n) := by
  have hways := ways_agree hp (s := ⟨c, []⟩) (t := ⟨d, []⟩) ⟨h, .nil⟩
  obtain ⟨u, hu, rfl⟩ := Option.map_eq_some_iff.1 hm
  obtain ⟨us, hus⟩ := List.head?_eq_some_iff.1 hu
  rw [hus, within, List.filter_cons_of_pos (by simpa using hstop)] at hways
  cases hvs : ways p ⟨d, []⟩ with
  | nil =>
    rw [hvs] at hways
    cases hways
  | cons v vs =>
    refine ⟨⟨⟨d, v.cursor⟩, v.groups⟩, by rw [matchAt?, hvs]; rfl, fun hv => ?_⟩
    rw [hvs, within, List.filter_cons_of_pos (by simpa using hv)] at hways
    cases hways with
    | cons huv _ =>
      exact ⟨h.offset_eq, huv.cursor.offset_eq, h.text_eq huv.cursor, text_lookup_eq huv.groups⟩

/-! ### Searching on -/

variable {resume offset : Nat} {prior : Option Char} {x : Char} {xs : List Char}

theorem findAllFrom_skip (h : offset < resume) :
    p.findAllFrom resume offset prior (x :: xs) =
      p.findAllFrom resume (offset + x.utf8Size) (some x) xs := by
  rw [findAllFrom, if_pos h]

theorem findAllFrom_none (h : p.matchAt? ⟨offset, prior, x :: xs⟩ = none) :
    p.findAllFrom resume offset prior (x :: xs) =
      p.findAllFrom resume (offset + x.utf8Size) (some x) xs := by
  rw [findAllFrom, h, ite_self]

theorem findAllFrom_some (hresume : resume ≤ offset) {m : Match}
    (h : p.matchAt? ⟨offset, prior, x :: xs⟩ = some m) :
    p.findAllFrom resume offset prior (x :: xs) =
      m :: p.findAllFrom m.whole.stop.offset (offset + x.utf8Size) (some x) xs := by
  rw [findAllFrom, if_neg (Nat.not_lt.2 hresume), h]

/-- Where no match starts, the search goes on behind. -/
theorem findAllFrom_append {before cs : List Char}
    (h : ∀ m ∈ p.findAllFrom resume offset prior (before ++ cs),
      offset + Text.size before ≤ m.whole.start.offset) :
    p.findAllFrom resume offset prior (before ++ cs) =
      p.findAllFrom resume (offset + Text.size before) (before.getLast?.or prior) cs := by
  induction before generalizing offset prior with
  | nil => rfl
  | cons x before ih =>
    have hnext : p.findAllFrom resume offset prior (x :: (before ++ cs)) =
        p.findAllFrom resume (offset + x.utf8Size) (some x) (before ++ cs) := by
      by_cases hresume : offset < resume
      · exact findAllFrom_skip hresume
      · cases hmatch : p.matchAt? ⟨offset, prior, x :: (before ++ cs)⟩ with
        | none => exact findAllFrom_none hmatch
        | some m =>
          rw [List.cons_append, findAllFrom_some (Nat.not_lt.1 hresume) hmatch] at h
          obtain ⟨t, -, rfl⟩ := exists_way_of_matchAt? hmatch
          have hstart := h _ List.mem_cons_self
          have hpos := x.utf8Size_pos
          rw [Text.size_cons] at hstart
          dsimp only at hstart
          omega
    rw [List.cons_append, hnext] at h ⊢
    rw [Text.size_cons, ← Nat.add_assoc] at h ⊢
    rw [ih h, List.getLast?_cons]
    cases before.getLast? <;> rfl

end Pattern

end CodeSurvey
