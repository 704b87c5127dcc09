import CodeSurvey.CallGraph
import CodeSurvey.Proofs.Extraction.Name
import CodeSurvey.Proofs.Pattern.Scan

/-!
# Call tokens

A line calls one name for each of its opening parentheses that has a name in front of it, with or
without white space between the two. The line is cut at the parentheses; the name is then at the end
of a piece, and no piece matters for the name in another one.
-/
namespace CodeSurvey.CallGraph

open JavaScript (isNameStart isNameChar_of_isNameStart)
open Pattern

/-- The text is a name with white space behind it. -/
def isNamed (cs : List Char) : Bool :=
  cs.head?.any isNameStart && (cs.dropWhile isNameChar).all Text.isBlank

/-- The name at the end of a text: that of the longest ending that is a name with white space behind
it. -/
def nameAtEnd? (cs : List Char) : Option String :=
  (cs.tails.find? isNamed).map fun ending => String.ofList (ending.takeWhile isNameChar)

/-! ### Reading a call -/

/-- The name that is called at the start of a text, and what follows the parenthesis. -/
def callAt? (cs : List Char) : Option (String × List Char) :=
  let behind := (cs.dropWhile isNameChar).dropWhile Text.isBlank
  if cs.head?.any isNameStart && behind.head? == some '(' then
    some (String.ofList (cs.takeWhile isNameChar), behind.tail)
  else none

/-- A name, white space and a parenthesis at the start of a text. -/
structure StartsCall (cs name gap rest : List Char) : Prop where
  text : cs = name ++ (gap ++ '(' :: rest)
  start : name.head?.any isNameStart = true
  name : ∀ c ∈ name, isNameChar c = true
  gap : ∀ c ∈ gap, Text.isBlank c = true

variable {cs name gap rest behind : List Char} {found : String}

/-- White space ends a name. -/
theorem stop_of_blank (hgap : ∀ c ∈ gap, Text.isBlank c = true)
    (hrest : rest.head?.any isNameChar = false) : (gap ++ rest).head?.any isNameChar = false := by
  cases gap with
  | nil => exact hrest
  | cons c gap =>
    by_contra hname
    have hblank := isBlank_of_isNameChar (Bool.ne_false_iff.1 hname)
    rw [hgap c List.mem_cons_self] at hblank
    cases hblank

theorem takeWhile_name (hname : ∀ c ∈ name, isNameChar c = true)
    (hstop : behind.head?.any isNameChar = false) :
      (name ++ behind).takeWhile isNameChar = name := by
  rw [List.takeWhile_append_of_pos hname]
  cases behind with
  | nil => rw [List.takeWhile_nil, List.append_nil]
  | cons c behind =>
    have hc : isNameChar c = false := hstop
    rw [List.takeWhile_cons_of_neg (by simp [hc]), List.append_nil]

theorem dropWhile_name (hname : ∀ c ∈ name, isNameChar c = true)
    (hstop : behind.head?.any isNameChar = false) :
      (name ++ behind).dropWhile isNameChar = behind := by
  have hsplit := List.takeWhile_append_dropWhile (p := isNameChar) (l := name ++ behind)
  rw [takeWhile_name hname hstop] at hsplit
  exact List.append_cancel_left hsplit

theorem head?_takeWhile_name (h : cs.head?.any isNameStart = true) :
    (cs.takeWhile isNameChar).head?.any isNameStart = true := by
  cases cs with
  | nil => cases h
  | cons c cs =>
    have hc : isNameStart c = true := h
    rw [List.takeWhile_cons_of_pos (isNameChar_of_isNameStart hc)]
    exact hc

theorem head?_append_name (h : name.head?.any isNameStart = true) (behind : List Char) :
    (name ++ behind).head?.any isNameStart = true := by
  cases name with
  | nil => cases h
  | cons c name => exact h

theorem StartsCall.stop (h : StartsCall cs name gap rest) :
    (gap ++ '(' :: rest).head?.any isNameChar = false :=
  stop_of_blank h.gap rfl

theorem StartsCall.callAt?_eq (h : StartsCall cs name gap rest) :
    callAt? cs = some (String.ofList name, rest) := by
  have hgap : (gap ++ '(' :: rest).dropWhile Text.isBlank = '(' :: rest := by
    rw [List.dropWhile_append_of_pos h.gap]
    rfl
  rw [h.text, callAt?, takeWhile_name h.name h.stop, dropWhile_name h.name h.stop, hgap,
    head?_append_name h.start]
  rfl

theorem exists_startsCall_of_callAt?_eq (h : callAt? cs = some (found, rest)) :
    ∃ name gap, StartsCall cs name gap rest ∧ found = String.ofList name := by
  obtain ⟨hboth, hfound⟩ := Option.ite_none_right_eq_some.1 h
  obtain ⟨hstart, hparen⟩ := Bool.and_eq_true_iff.1 hboth
  obtain ⟨rfl, rfl⟩ := Prod.mk.inj (Option.some.inj hfound)
  refine ⟨cs.takeWhile isNameChar, (cs.dropWhile isNameChar).takeWhile Text.isBlank,
    ⟨?_, ?_, ?_, ?_⟩, rfl⟩
  · rw [← List.eq_cons_of_mem_head? (beq_iff_eq.1 hparen), List.takeWhile_append_dropWhile,
      List.takeWhile_append_dropWhile]
  · exact head?_takeWhile_name hstart
  · exact List.all_eq_true.1 List.all_takeWhile
  · exact List.all_eq_true.1 List.all_takeWhile

/-- The pattern for call tokens matches what is read. -/
theorem readBy_callToken : callToken.ReadBy (fun m => m.string "name") callAt? where
  fails {cs} h offset prior := by
    rw [Fails, List.eq_nil_iff_forall_not_mem]
    intro t ht
    obtain ⟨u, hu, hparen⟩ := List.mem_flatMap.1 ht
    obtain ⟨v, hv, hgap⟩ := List.mem_flatMap.1 hu
    obtain ⟨w, hw, rfl⟩ := List.mem_map.1 hv
    obtain ⟨x, hx, hmore⟩ := List.mem_flatMap.1 hw
    obtain ⟨-, c, hc, hstart⟩ := reads_of_mem_ways_char hx
    obtain ⟨-, more, hname, hmore⟩ := reads_of_mem_ways_run hmore
    obtain ⟨-, gap, hgap, hblank⟩ := reads_of_mem_ways_run hgap
    obtain ⟨-, d, hd, hparen⟩ := reads_of_mem_ways_char hparen
    obtain rfl := beq_iff_eq.1 hparen
    have hcalls : StartsCall cs (c :: more) gap t.cursor.rest := by
      refine ⟨?_, hstart, ?_, hblank⟩
      · have hread := ((hc.trans hname).trans hgap).trans hd
        simpa using hread.rest
      · exact List.forall_mem_cons.2 ⟨isNameChar_of_isNameStart hstart, hmore⟩
    rw [hcalls.callAt?_eq] at h
    cases h
  shorter h := by
    obtain ⟨name, gap, hcalls, -⟩ := exists_startsCall_of_callAt?_eq h
    rw [hcalls.text, List.length_append, List.length_append, List.length_cons]
    omega
  leads {cs a rest} h offset prior := by
    obtain ⟨name, gap, hcalls, rfl⟩ := exists_startsCall_of_callAt?_eq h
    cases name with
    | nil => cases hcalls.start
    | cons c more =>
      have hstart : isNameStart c = true := hcalls.start
      have hmore : ∀ d ∈ more, isNameChar d = true := fun d hd => hcalls.name d (by simp [hd])
      have hname : (Pattern.seq (.char isNameStart) (.run isNameChar)).Leads
          ⟨⟨offset, prior, cs⟩, []⟩
          (Progress.after ⟨⟨offset, prior, cs⟩, []⟩ (c :: more) (gap ++ '(' :: rest)) := by
        have hrun := leads_run (s := Progress.after ⟨⟨offset, prior, cs⟩, []⟩ [c]
          (more ++ (gap ++ '(' :: rest))) hmore hcalls.stop rfl
        rw [Progress.after_after] at hrun
        exact (leads_char hstart hcalls.text).seq hrun
      have hcall : callToken.Leads ⟨⟨offset, prior, cs⟩, []⟩ _ :=
        .seq (.seq (hname.group "name") (leads_run hcalls.gap rfl rfl))
          (leads_char (c := '(') rfl rfl)
      exact ⟨_, hcall, rfl, Match.string_group _ _ _ hcalls.text⟩

/-! ### Pieces of a line -/

theorem nameAtEnd?_cons (c : Char) (cs : List Char) :
    nameAtEnd? (c :: cs) =
      if isNamed (c :: cs) then some (String.ofList ((c :: cs).takeWhile isNameChar))
      else nameAtEnd? cs := by
  rw [nameAtEnd?, List.tails, List.find?_cons]
  cases isNamed (c :: cs) <;> rfl

/-- In front of the next parenthesis a call is read where the text is a name with white space. -/
theorem callAt?_append (h : '(' ∉ cs) (rest : List Char) :
    callAt? (cs ++ '(' :: rest) =
      if isNamed cs then some (String.ofList (cs.takeWhile isNameChar), rest) else none := by
  cases hfound : callAt? (cs ++ '(' :: rest) with
  | none =>
    rw [if_neg]
    intro hnamed
    obtain ⟨hstart, hblank⟩ := Bool.and_eq_true_iff.1 hnamed
    have hcalls : StartsCall (cs ++ '(' :: rest) (cs.takeWhile isNameChar)
        (cs.dropWhile isNameChar) rest := by
      refine ⟨?_, head?_takeWhile_name hstart, List.all_eq_true.1 List.all_takeWhile,
        List.all_eq_true.1 hblank⟩
      rw [← List.append_assoc, List.takeWhile_append_dropWhile]
    rw [hcalls.callAt?_eq] at hfound
    cases hfound
  | some found =>
    obtain ⟨found, left⟩ := found
    obtain ⟨name, gap, hcalls, rfl⟩ := exists_startsCall_of_callAt?_eq hfound
    -- Neither the name nor the white space has a parenthesis, so the one read is the next one.
    have hparen : '(' ∉ name ++ gap := by
      rw [List.mem_append, not_or]
      exact ⟨fun hmem => ne_of_isNameChar (hcalls.name _ hmem) rfl rfl,
        fun hmem => absurd (hcalls.gap _ hmem) (by decide)⟩
    have htext : cs ++ '(' :: rest = (name ++ gap) ++ '(' :: left := by
      rw [hcalls.text, List.append_assoc]
    have hsplit := congrArg (List.splitOn '(') htext
    rw [List.splitOn_append_cons_self_of_not_mem h,
      List.splitOn_append_cons_self_of_not_mem hparen] at hsplit
    obtain rfl := (List.cons.inj hsplit).1
    obtain rfl := (List.cons.inj (List.append_cancel_left htext)).2
    have hstop : gap.head?.any isNameChar = false := by
      rw [← List.append_nil gap]
      exact stop_of_blank hcalls.gap rfl
    rw [isNamed, takeWhile_name hcalls.name hstop, dropWhile_name hcalls.name hstop,
      head?_append_name hcalls.start, List.all_eq_true.2 hcalls.gap]
    rfl

/-- What is read in a piece of a line and the parenthesis behind it, and then in the rest. -/
theorem map_scanFrom_callAt? (h : '(' ∉ cs) (rest : List Char) (offset : Nat) :
    ∃ offset', (scanFrom callAt? offset 0 (cs ++ '(' :: rest)).map Prod.snd =
      (nameAtEnd? cs).toList ++ (scanFrom callAt? offset' 0 rest).map Prod.snd := by
  induction cs generalizing offset with
  | nil => exact ⟨_, rfl⟩
  | cons c cs ih =>
    have hcall := callAt?_append h rest
    rw [nameAtEnd?_cons]
    by_cases hnamed : isNamed (c :: cs) = true
    · rw [if_pos hnamed] at hcall ⊢
      have hsplit : (c :: cs) ++ '(' :: rest = ((c :: cs) ++ ['(']) ++ rest := by simp
      rw [hsplit] at hcall ⊢
      rw [scanFrom_read (by simp) hcall]
      exact ⟨_, rfl⟩
    · rw [if_neg hnamed] at hcall ⊢
      rw [List.cons_append] at hcall ⊢
      rw [scanFrom, hcall]
      exact ih (fun hmem => h (by simp [hmem])) _

/-- Without a parenthesis nothing is called. -/
theorem scanFrom_callAt?_of_not_mem (h : '(' ∉ cs) (offset : Nat) :
    scanFrom callAt? offset 0 cs = [] := by
  rw [List.eq_nil_iff_forall_not_mem]
  intro found hfound
  obtain ⟨here, rest, hhere, hcall⟩ := exists_read_of_mem_scanFrom hfound
  obtain ⟨name, gap, hcalls, -⟩ := exists_startsCall_of_callAt?_eq hcall
  refine h (hhere.subset ?_)
  simp [hcalls.text]

theorem map_scanFrom_eq (line : List Char) (offset : Nat) :
    (scanFrom callAt? offset 0 line).map Prod.snd =
      (line.splitOn '(').dropLast.filterMap nameAtEnd? := by
  induction hlength : line.length using Nat.strong_induction_on generalizing line offset with
  | _ n ih =>
    by_cases hmem : '(' ∈ line
    · obtain ⟨piece, rest, rfl, hpiece⟩ := List.eq_append_cons_of_mem hmem
      obtain ⟨offset', hscan⟩ := map_scanFrom_callAt? hpiece rest offset
      have hshorter : rest.length < n := by
        rw [← hlength, List.length_append, List.length_cons]
        omega
      rw [hscan, ih rest.length hshorter rest offset' rfl,
        List.splitOn_append_cons_self_of_not_mem hpiece,
        List.dropLast_cons_of_ne_nil (List.splitOn_ne_nil _ _), List.filterMap_cons]
      cases nameAtEnd? piece <;> rfl
    · rw [scanFrom_callAt?_of_not_mem hmem, List.splitOn_eq_singleton hmem]
      rfl

/-- The names that a line calls: cut the line at its opening parentheses, and take the name at the
end of each piece that has a parenthesis behind it. -/
theorem callTokens_eq (line : List Char) :
    callTokens line = (line.splitOn '(').dropLast.filterMap nameAtEnd? := by
  rw [← map_scanFrom_eq line 0, callTokens]
  have hscan := congrArg (List.map Prod.snd) (readBy_callToken.findAll_eq line)
  rwa [List.map_map] at hscan

-- Digits start no name, and a parenthesis without a name calls nothing.
example : callTokens "x = (2max (f (a), g)".toList = ["max", "f"] := by decide +kernel

end CodeSurvey.CallGraph
