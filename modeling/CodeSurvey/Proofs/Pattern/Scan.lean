import CodeSurvey.Proofs.Pattern.First
import Mathlib.Data.List.Forall2
import Mathlib.Data.List.Infix

/-!
# Reading a text place by place

A reader tells what stands at a place of a text and what follows it. Where a pattern matches just
what a reader reads, the matches of the pattern in a text are what the reader finds, going through
the text from left to right and going on behind each thing that it has read.
-/
namespace CodeSurvey

/-! ### Runs that give way -/

namespace Cursor

variable {accepts : Char → Bool} {read rest : List Char}

/-- A run gives way to what follows: it ends at the last place from which there is a way on. -/
theorem head?_flatMap_runs {α : Type} {visit : Cursor → List α} {a : α}
    (hread : ∀ c ∈ read, accepts c = true)
      (hlonger : ∀ (c : Cursor) (more : List Char), more ≠ [] → (∀ x ∈ more, accepts x = true) →
      rest = more ++ c.rest → visit c = [])
    {offset : Nat} {prior : Option Char} (acc : List Cursor)
    (hvisit : (visit ⟨offset + Text.size read, read.getLast?.or prior, rest⟩).head? = some a) :
    ((runs accepts offset (read ++ rest) (⟨offset, prior, read ++ rest⟩ :: acc)).flatMap
      visit).head? = some a := by
  induction read generalizing offset prior acc with
  | nil =>
    obtain ⟨reached, hruns, hreached⟩ :=
      runs_eq_append accepts offset rest (⟨offset, prior, rest⟩ :: acc)
    have hnone : reached.flatMap visit = [] := by
      rw [List.flatMap_eq_nil_iff]
      intro c hc
      obtain ⟨more, hne, hrest, -, hmore⟩ := hreached c hc
      exact hlonger c more hne hmore hrest
    have hhere : (visit ⟨offset, prior, rest⟩).head? = some a := hvisit
    rw [List.nil_append, hruns, List.flatMap_append, hnone, List.nil_append, List.flatMap_cons,
      List.head?_append, hhere]
    rfl
  | cons x read ih =>
    rw [List.cons_append, runs, if_pos (hread x List.mem_cons_self)]
    refine ih (fun c hc => hread c (List.mem_cons_of_mem x hc)) _ ?_
    rw [← hvisit]
    simp [List.getLast?_cons, Nat.add_assoc]

end Cursor

namespace Pattern

variable {p q : Pattern} {s t : Progress} {accepts : Char → Bool} {read rest : List Char}

theorem append_eq_seq (p q : Pattern) : p ++ q = .seq p q :=
  rfl

/-- A group that is a run ends at the last place from which what follows has a way on. -/
theorem leads_group_run_seq (name : String) (hread : ∀ c ∈ read, accepts c = true)
    (hs : s.cursor.rest = read ++ rest)
    (hnext : q.Leads ⟨(s.after read rest).cursor,
      (name, ⟨s.cursor, (s.after read rest).cursor⟩) :: s.groups⟩ t)
    (hlonger : ∀ (u : Progress) (more : List Char), more ≠ [] → (∀ x ∈ more, accepts x = true) →
      rest = more ++ u.cursor.rest → q.Fails u) :
    (Pattern.seq (.group name (.run accepts)) q).Leads s t := by
  obtain ⟨⟨offset, prior, cs⟩, groups⟩ := s
  obtain rfl : cs = read ++ rest := hs
  rw [Leads, ways, ways, ways, List.map_map, List.flatMap_map]
  exact Cursor.head?_flatMap_runs hread
    (fun c more hne hmore hrest => hlonger _ more hne hmore hrest) [] hnext

/-! ### Words in either case -/

/-- The text is the word, in capital or small letters. -/
def Folded (word read : List Char) : Prop :=
  List.Forall₂ (fun x c => foldsTo x c = true) word read

/-- What follows the word, in capital or small letters, at the start of a text. -/
def afterFolded? : List Char → List Char → Option (List Char)
  | [], cs => some cs
  | _ :: _, [] => none
  | x :: xs, c :: cs => if foldsTo x c then afterFolded? xs cs else none

theorem afterFolded?_eq_some_iff {word cs rest : List Char} :
    afterFolded? word cs = some rest ↔ ∃ read, Folded word read ∧ cs = read ++ rest := by
  constructor
  · intro h
    fun_induction afterFolded? word cs with
    | case1 cs =>
      obtain rfl : cs = rest := by simpa using h
      exact ⟨[], .nil, rfl⟩
    | case2 => cases h
    | case3 x xs c cs hfold ih =>
      obtain ⟨read, hread, rfl⟩ := ih h
      exact ⟨c :: read, .cons hfold hread, rfl⟩
    | case4 => cases h
  · rintro ⟨read, hread, rfl⟩
    induction hread with
    | nil => rfl
    | cons hfold _ ih =>
      rw [List.cons_append, afterFolded?, if_pos hfold]
      exact ih

theorem leads_litFolded {w : String} (hread : Folded w.toList read)
    (hs : s.cursor.rest = read ++ rest) :
    (litFolded w).Leads s (s.after read rest) := by
  rw [litFolded]
  generalize w.toList = word at hread
  induction hread generalizing s with
  | nil =>
    obtain ⟨⟨offset, prior, cs⟩, groups⟩ := s
    obtain rfl : cs = rest := hs
    rfl
  | @cons x c xs read hfold _ ih =>
    have hmore := ih (s := s.after [c] (read ++ rest)) rfl
    rw [Progress.after_after] at hmore
    exact (leads_char hfold hs).seq hmore

theorem folded_of_mem_ways {w : String} (h : t ∈ ways (litFolded w) s) :
    ∃ read, s.cursor.Reads read t.cursor ∧ Folded w.toList read := by
  rw [litFolded] at h
  generalize w.toList = word at h
  induction word generalizing s with
  | nil =>
    obtain rfl := List.mem_singleton.1 h
    exact ⟨[], .refl _, .nil⟩
  | cons x word ih =>
    obtain ⟨u, hu, ht⟩ := List.mem_flatMap.1 h
    obtain ⟨-, c, hc, hfold⟩ := reads_of_mem_ways_char hu
    obtain ⟨read, hread, hfolded⟩ := ih ht
    exact ⟨c :: read, hc.trans hread, .cons hfold hfolded⟩

/-! ### Readers -/

/-- What a reader finds in a text, with the offset of each: it goes on behind each thing that it
reads. The first `skip` characters have been read. -/
def scanFrom {α : Type} (reader : List Char → Option (α × List Char)) (offset skip : Nat) :
    List Char → List (Nat × α)
  | [] => []
  | c :: cs =>
    match skip with
    | skip + 1 => scanFrom reader (offset + c.utf8Size) skip cs
    | 0 =>
      match reader (c :: cs) with
      | some (a, rest) =>
        (offset, a) :: scanFrom reader (offset + c.utf8Size) (cs.length - rest.length) cs
      | none => scanFrom reader (offset + c.utf8Size) 0 cs

def scan {α : Type} (reader : List Char → Option (α × List Char)) (cs : List Char) :
    List (Nat × α) :=
  scanFrom reader 0 0 cs

/-- The pattern matches where the reader reads something: it matches what is read, and shows what it
is. -/
structure ReadBy {α : Type} (p : Pattern) (view : Match → α)
    (reader : List Char → Option (α × List Char)) : Prop where
  fails : ∀ {cs}, reader cs = none → ∀ offset prior, p.Fails ⟨⟨offset, prior, cs⟩, []⟩
  shorter : ∀ {cs a rest}, reader cs = some (a, rest) → rest.length < cs.length
  leads : ∀ {cs a rest}, reader cs = some (a, rest) → ∀ offset prior, ∃ t,
    p.Leads ⟨⟨offset, prior, cs⟩, []⟩ t ∧ t.cursor.rest = rest ∧
      view ⟨⟨⟨offset, prior, cs⟩, t.cursor⟩, t.groups⟩ = a

variable {α : Type} {view : Match → α} {reader : List Char → Option (α × List Char)}

theorem ReadBy.findAllFrom_eq (h : p.ReadBy view reader) {resume offset skip : Nat}
    {prior : Option Char} {cs : List Char}
    (hresume : max offset resume = offset + Text.size (cs.take skip)) :
    (findAllFrom p resume offset prior cs).map (fun m => (m.whole.offset, view m)) =
      scanFrom reader offset skip cs := by
  induction cs generalizing resume offset skip prior with
  | nil => rfl
  | cons c cs ih =>
    have hpos := c.utf8Size_pos
    cases skip with
    | succ skip =>
      rw [List.take_succ_cons, Text.size_cons] at hresume
      rw [findAllFrom, scanFrom, if_pos (by omega)]
      exact ih (by omega)
    | zero =>
      rw [List.take_zero, Text.size_nil] at hresume
      rw [findAllFrom, scanFrom, if_neg (by omega)]
      cases hreader : reader (c :: cs) with
      | none =>
        have hnone : p.matchAt? ⟨offset, prior, c :: cs⟩ = none := by
          rw [matchAt?, h.fails hreader]
          rfl
        rw [hnone]
        exact ih (by rw [List.take_zero, Text.size_nil]; omega)
      | some found =>
        obtain ⟨a, rest⟩ := found
        obtain ⟨t, hway, rfl, hview⟩ := h.leads hreader offset prior
        have hshorter := h.shorter hreader
        obtain ⟨read, hread⟩ := reads_of_mem_ways (List.mem_of_mem_head? hway)
        obtain ⟨hrest, hoffset⟩ := hread
        cases read with
        | nil =>
          rw [show c :: cs = t.cursor.rest from hrest] at hshorter
          omega
        | cons x read =>
          obtain ⟨rfl, rfl⟩ := List.cons.inj (show c :: cs =
            x :: (read ++ t.cursor.rest) from hrest)
          have htake : (read ++ t.cursor.rest).take
              ((read ++ t.cursor.rest).length - t.cursor.rest.length) = read := by
            simp
          have hstop : max (offset + c.utf8Size) t.cursor.offset =
              offset + c.utf8Size + Text.size read := by
            rw [hoffset, Text.size_cons]
            dsimp only
            omega
          rw [matchAt?, hway]
          dsimp only [Option.map_some]
          rw [List.map_cons, hview, ih (by rw [htake]; exact hstop)]
          rfl

/-- The matches of a pattern are what its reader finds. -/
theorem ReadBy.findAll_eq (h : p.ReadBy view reader) (cs : List Char) :
    (p.findAll cs).map (fun m => (m.whole.offset, view m)) = scan reader cs :=
  h.findAllFrom_eq (by simp)

theorem ReadBy.isSome_findFrom (h : p.ReadBy view reader) (offset : Nat) (prior : Option Char)
    (cs : List Char) :
    (findFrom p offset prior cs).isSome = cs.tails.any fun rest => (reader rest).isSome := by
  have hhere : ∀ offset prior cs, (p.matchAt? ⟨offset, prior, cs⟩).isSome = (reader cs).isSome := by
    intro offset prior cs
    cases hreader : reader cs with
    | none =>
      rw [matchAt?, h.fails hreader]
      rfl
    | some found =>
      obtain ⟨t, hway, -⟩ := h.leads hreader offset prior
      rw [matchAt?, hway]
      rfl
  induction cs generalizing offset prior with
  | nil => simpa [findFrom] using hhere offset prior []
  | cons c cs ih =>
    rw [findFrom, List.tails_cons, List.any_cons, ← hhere offset prior,
      ← ih (offset + c.utf8Size) (some c)]
    cases p.matchAt? ⟨offset, prior, c :: cs⟩ <;> rfl

theorem ReadBy.occurs_eq (h : p.ReadBy view reader) (cs : List Char) :
    p.occurs cs = cs.tails.any fun rest => (reader rest).isSome :=
  h.isSome_findFrom 0 none cs

/-! ### What a reader finds -/

theorem scanFrom_skip (part rest : List Char) (offset : Nat) :
    scanFrom reader offset part.length (part ++ rest) =
      scanFrom reader (offset + Text.size part) 0 rest := by
  induction part generalizing offset with
  | nil => rfl
  | cons c part ih =>
    rw [List.length_cons, List.cons_append, scanFrom, ih, Text.size_cons, Nat.add_assoc]

/-- A thing that is read, and then the rest of the text. -/
theorem scanFrom_read {a : α} (hne : read ≠ []) (h : reader (read ++ rest) = some (a, rest))
    (offset : Nat) :
    scanFrom reader offset 0 (read ++ rest) =
      (offset, a) :: scanFrom reader (offset + Text.size read) 0 rest := by
  obtain ⟨c, read, rfl⟩ := List.exists_cons_of_ne_nil hne
  rw [List.cons_append] at h ⊢
  have hlength : (read ++ rest).length - rest.length = read.length := by simp
  rw [scanFrom, h]
  dsimp only
  rw [hlength, scanFrom_skip, Text.size_cons, Nat.add_assoc]

/-- A part of the text in which nothing that can be read starts. -/
theorem scanFrom_pass {part : List Char}
    (h : ∀ more, more ≠ [] → more <:+ part → reader (more ++ rest) = none) (offset : Nat) :
    scanFrom reader offset 0 (part ++ rest) = scanFrom reader (offset + Text.size part) 0 rest := by
  induction part generalizing offset with
  | nil => rfl
  | cons c part ih =>
    have hnone : reader (c :: (part ++ rest)) = none := h (c :: part) (by simp) (List.suffix_refl _)
    rw [List.cons_append, scanFrom, hnone]
    dsimp only
    rw [ih fun more hne hmore => h more hne (hmore.trans (List.suffix_cons c part)), Text.size_cons,
      Nat.add_assoc]

/-- Whatever is found is read at some place of the text. -/
theorem exists_read_of_mem_scanFrom {offset skip : Nat} {cs : List Char} {found : Nat × α}
    (h : found ∈ scanFrom reader offset skip cs) :
      ∃ here rest, here <:+ cs ∧ reader here = some (found.2, rest) := by
  induction cs generalizing offset skip with
  | nil => cases h
  | cons c cs ih =>
    have hlater : ∀ {offset' skip' : Nat}, found ∈ scanFrom reader offset' skip' cs →
        ∃ here rest, here <:+ c :: cs ∧ reader here = some (found.2, rest) := by
      intro offset' skip' hfound
      obtain ⟨here, rest, hhere, hread⟩ := ih hfound
      exact ⟨here, rest, hhere.trans (List.suffix_cons c cs), hread⟩
    cases skip with
    | succ skip => exact hlater h
    | zero =>
      rw [scanFrom] at h
      cases hreader : reader (c :: cs) with
      | none =>
        rw [hreader] at h
        exact hlater h
      | some first =>
        rw [hreader] at h
        rcases List.mem_cons.1 h with rfl | h
        · exact ⟨c :: cs, first.2, List.suffix_refl _, hreader⟩
        · exact hlater h

end Pattern

end CodeSurvey
