import CodeSurvey.Proofs.Extraction.Name
import CodeSurvey.Proofs.Scope

/-!
# The walks of the languages

Each language says which lines take part in scopes, how deep they are, and which types and functions
have their heads on them. Its walk over a text is a trace of these lines.
-/
namespace CodeSurvey

theorem of_drop_eq_cons {α : Type} {l : List α} {k : Nat} {a : α} {rest : List α}
    (h : l.drop k = a :: rest) :
    l[k]? = some a ∧ l.drop (k + 1) = rest := by
  constructor
  · rw [← Nat.add_zero k, ← List.getElem?_drop, h]
    rfl
  · rw [← List.tail_drop, h]
    rfl

variable {s : SourceText} {before : List ScopeLine} {k : Nat}

/-- The lines that were read before line `k` stay before the next one. -/
theorem number_lt_succ {l : ScopeLine} (h : ∀ b ∈ before, b.number < k) (hl : l.number = k) :
    ∀ b ∈ before ++ [l], b.number < k + 1 := by
  intro b hb
  rcases List.mem_append.1 hb with hb | hb
  · exact Nat.lt_succ_of_lt (h b hb)
  · rw [List.mem_singleton.1 hb, hl]
    exact Nat.lt_succ_self k

namespace Python

/-- The function head on a line, where a class head comes first. -/
def functionOn? (s : SourceText) (line : List Char) (i : Nat) : Option Head :=
  match classHead.matchHead? line with
  | some _ => none
  | none => head? s i line

/-- The first line that is not covered by a head, after line `i`. -/
def resumeAfter (s : SourceText) (resume : Nat) (line : List Char) (i : Nat) : Nat :=
  match functionOn? s line i with
  | some h => s.index.lineOf h.colon + 1
  | none => resume

/-- The lines that take part in scopes: they are neither blank nor covered by a head that starts
above them. -/
def logicalLines (s : SourceText) (resume : Nat) : List (List Char × Nat) → List (List Char × Nat)
  | [] => []
  | (line, i) :: rest =>
    if i < resume || Text.isBlankLine line then logicalLines s resume rest
    else (line, i) :: logicalLines s (resumeAfter s resume line i) rest

def scopeLine (entry : List Char × Nat) : ScopeLine :=
  ⟨entry.2, indentWidth entry.1, ((classHead.matchHead? entry.1).map (·.string "name")).toList⟩

def scopeLines (s : SourceText) : List ScopeLine :=
  (logicalLines s 0 s.numberedLines).map scopeLine

/-- The names that function heads on a line declare. -/
def headsOn (s : SourceText) (i : Nat) : List String :=
  ((s.maskedLines[i]?.bind fun line => functionOn? s line i).map Head.name).toList

theorem visit_logical {w : Walk} {line : List Char} {i : Nat}
    (hline : s.maskedLines[i]? = some line) (h : ¬(i < w.resume || Text.isBlankLine line) = true) :
    (visit s w (line, i)).resume = resumeAfter s w.resume line i ∧
      DeclaresOn (scopeLine (line, i)) (headsOn s i)
        (w.stack.openLine (scopeLine (line, i))) w.found
        (visit s w (line, i)).stack (visit s w (line, i)).found := by
  rw [visit, if_neg h, resumeAfter, functionOn?]
  cases hclass : classHead.matchHead? line with
  | some m =>
    refine ⟨rfl, ?_⟩
    simp only [ScopeStack.openLine, scopeLine, hclass]
    exact .none _ _
  | none =>
    cases hhead : head? s i line with
    | none =>
      refine ⟨rfl, ?_⟩
      simp only [ScopeStack.openLine, scopeLine, hclass]
      exact .none _ _
    | some head =>
      refine ⟨rfl, ?_⟩
      have hname : head.name ∈ headsOn s i := by simp [headsOn, hline, functionOn?, hclass, hhead]
      simp only [ScopeStack.openLine, scopeLine, hclass]
      exact .next hname rfl rfl (.none _ _)

theorem trace_foldl {lines : List (List Char)} {w : Walk} (hlines : s.maskedLines.drop k = lines)
    (h : Trace (headsOn s) before w.stack w.found) (hbefore : ∀ b ∈ before, b.number < k) :
    Trace (headsOn s) (before ++ (logicalLines s w.resume (lines.zipIdx k)).map scopeLine)
      ((lines.zipIdx k).foldl (visit s) w).stack ((lines.zipIdx k).foldl (visit s) w).found := by
  induction lines generalizing k w before with
  | nil => simpa [logicalLines] using h
  | cons line lines ih =>
    obtain ⟨hline, hlines⟩ := of_drop_eq_cons hlines
    rw [List.zipIdx_cons, List.foldl_cons, logicalLines]
    by_cases hskip : (k < w.resume || Text.isBlankLine line) = true
    · have hvisit : visit s w (line, k) = w := if_pos hskip
      rw [if_pos hskip, hvisit]
      exact ih hlines h fun b hb => Nat.lt_succ_of_lt (hbefore b hb)
    · obtain ⟨hresume, hdeclares⟩ := visit_logical hline hskip
      rw [if_neg hskip, ← hresume, List.map_cons, ← List.singleton_append, ← List.append_assoc]
      exact ih hlines (.line h hbefore hdeclares) (number_lt_succ hbefore rfl)

theorem trace_walk (s : SourceText) :
    ∃ stack, Trace (headsOn s) (scopeLines s) stack
      (s.numberedLines.foldl (visit s) ⟨.empty, 0, []⟩).found :=
  ⟨_, trace_foldl (k := 0) (w := ⟨.empty, 0, []⟩) rfl .start (by simp)⟩

end Python

namespace Swift

/-- The names that function heads on a line declare; a type head comes first. -/
def headsOn (s : SourceText) (i : Nat) : List String :=
  ((s.maskedLines[i]?.bind fun line =>
    match typeName? line with
    | some _ => none
    | none => head? s i line).map Head.name).toList

def scopeLine (entry : (List Char × Nat) × Nat) : ScopeLine :=
  ⟨entry.1.2, entry.2, (typeName? entry.1.1).toList⟩

/-- The lines that take part in scopes are those that are not blank. -/
def scopeLines (s : SourceText) : List ScopeLine :=
  ((s.numberedLines.zip (braceDepths s.masked)).filter fun e => !Text.isBlankLine e.1.1).map
    scopeLine

theorem visit_line_of_not_blank {w : Walk} {line : List Char} {i depth : Nat}
    (hline : s.maskedLines[i]? = some line) (h : ¬Text.isBlankLine line = true) :
    DeclaresOn (scopeLine ((line, i), depth)) (headsOn s i)
      (w.stack.openLine (scopeLine ((line, i), depth))) w.found
      (visit s w ((line, i), depth)).stack (visit s w ((line, i), depth)).found := by
  rw [visit, if_neg h]
  cases htype : typeName? line with
  | some name =>
    simp only [ScopeStack.openLine, scopeLine, htype]
    exact .none _ _
  | none =>
    cases hhead : head? s i line with
    | none =>
      simp only [ScopeStack.openLine, scopeLine, htype]
      exact .none _ _
    | some head =>
      have hname : head.name ∈ headsOn s i := by simp [headsOn, hline, htype, hhead]
      simp only [ScopeStack.openLine, scopeLine, htype]
      exact .next hname rfl rfl (.none _ _)

theorem trace_foldl {lines : List (List Char)} {depths : List Nat} {w : Walk}
    (hlines : s.maskedLines.drop k = lines) (h : Trace (headsOn s) before w.stack w.found)
    (hbefore : ∀ b ∈ before, b.number < k) :
    Trace (headsOn s)
      (before ++ (((lines.zipIdx k).zip depths).filter fun e => !Text.isBlankLine e.1.1).map
        scopeLine)
      (((lines.zipIdx k).zip depths).foldl (visit s) w).stack
      (((lines.zipIdx k).zip depths).foldl (visit s) w).found := by
  induction lines generalizing k w before depths with
  | nil => simpa using h
  | cons line lines ih =>
    obtain ⟨hline, hlines⟩ := of_drop_eq_cons hlines
    cases depths with
    | nil => simpa using h
    | cons depth depths =>
      rw [List.zipIdx_cons, List.zip_cons_cons, List.foldl_cons]
      by_cases hblank : Text.isBlankLine line = true
      · have hvisit : visit s w ((line, k), depth) = w := if_pos hblank
        rw [List.filter_cons_of_neg (by simp [hblank]), hvisit]
        exact ih hlines h fun b hb => Nat.lt_succ_of_lt (hbefore b hb)
      · rw [List.filter_cons_of_pos (by simp [hblank]), List.map_cons, ← List.singleton_append,
          ← List.append_assoc]
        exact ih hlines (.line h hbefore (visit_line_of_not_blank hline hblank))
          (number_lt_succ hbefore rfl)

theorem trace_walk (s : SourceText) :
    ∃ stack, Trace (headsOn s) (scopeLines s) stack
      ((s.numberedLines.zip (braceDepths s.masked)).foldl (visit s) ⟨.empty, []⟩).found :=
  ⟨_, trace_foldl (k := 0) (w := ⟨.empty, []⟩) rfl .start (by simp)⟩

end Swift

namespace JavaScript

/-- The names that heads on a line may declare. -/
def headsOn (s : SourceText) (i : Nat) : List String :=
  ((candidates s).filter (·.line == i)).map Candidate.name

def scopeLine (s : SourceText) (entry : (List Char × Nat) × Nat) : ScopeLine :=
  ⟨entry.1.2, entry.2, ((classes s).filter (·.1 == entry.1.2)).map Prod.snd⟩

/-- The lines that take part in scopes are those that are not blank. -/
def scopeLines (s : SourceText) : List ScopeLine :=
  ((s.numberedLines.zip (braceDepths s.masked)).filter fun e => !Text.isBlankLine e.1.1).map
  (scopeLine s)

/-- Classes come in the order of their lines. -/
theorem pairwise_classes (s : SourceText) : (classes s).Pairwise fun c d => c.1 ≤ d.1 := by
  have hclasses : classes s = ((classHead.findAll s.masked).filterMap fun m => m.group? "name").map
      fun name => (s.index.lineOf name.offset, name.string) := by
    rw [List.map_filterMap]
    rfl
  rw [hclasses, List.pairwise_map]
  exact (Pattern.pairwise_name_offset _ _).imp fun h => s.index.lineOf_mono h

theorem openClasses_eq {i depth : Nat} {stack : ScopeStack} {cs : List (Nat × String)}
    (hordered : cs.Pairwise fun c d => c.1 ≤ d.1) (hfrom : ∀ c ∈ cs, i ≤ c.1) :
    openClasses i depth stack cs =
      (((cs.filter (·.1 == i)).map Prod.snd).foldl (fun s name => s.pushType name depth) stack,
        cs.filter fun c => i + 1 ≤ c.1) := by
  induction cs generalizing stack with
  | nil => rfl
  | cons c cs ih =>
    obtain ⟨line, name⟩ := c
    rw [List.pairwise_cons] at hordered
    have hlater : ∀ d ∈ cs, i ≤ d.1 := fun d hd => hfrom d (by simp [hd])
    rw [openClasses]
    by_cases hline : line = i
    · subst hline
      rw [if_pos (by simp), ih hordered.2 hlater, List.filter_cons_of_pos (by simp),
        List.filter_cons_of_neg (by simp)]
      rfl
    · have hle := hfrom (line, name) (by simp)
      have hpast : ∀ d ∈ (line, name) :: cs, i + 1 ≤ d.1 := by
        rintro d (_ | ⟨_, hd⟩)
        · omega
        · have hd' := hordered.1 d hd
          omega
      have hnone : ((line, name) :: cs).filter (·.1 == i) = [] := by
        rw [List.filter_eq_nil_iff]
        intro d hd
        have hd' := hpast d hd
        simp only [beq_iff_eq]
        omega
      rw [if_neg (by simpa using hline), hnone, List.filter_eq_self.2 (by simpa using hpast)]
      rfl

theorem declaresOn_takeCandidates {l : ScopeLine} {stack : ScopeStack} {found : List Declaration}
    {cs : List Candidate} (hcs : ∀ c ∈ cs, c ∈ candidates s) :
    DeclaresOn l (headsOn s l.number) stack found
      (takeCandidates s l.number l.depth stack found cs).1
      (takeCandidates s l.number l.depth stack found cs).2.1 := by
  induction cs generalizing stack found with
  | nil => exact .none _ _
  | cons c cs ih =>
    have hmore : ∀ d ∈ cs, d ∈ candidates s := fun d hd => hcs d (by simp [hd])
    rw [takeCandidates]
    split
    · rename_i hline
      have hname : c.name ∈ headsOn s l.number :=
        List.mem_map_of_mem (List.mem_filter.2 ⟨hcs c (by simp), hline⟩)
      dsimp only
      split
      · exact ih hmore
      · exact .next hname (congrArg (· + 1) (beq_iff_eq.1 hline)) rfl (ih hmore)
    · exact .none _ _

theorem takeCandidates_subset {i depth : Nat} {stack : ScopeStack} {found : List Declaration}
    {cs : List Candidate} :
    (takeCandidates s i depth stack found cs).2.2 ⊆ cs := by
  induction cs generalizing stack found with
  | nil => exact List.Subset.refl _
  | cons c cs ih =>
    rw [takeCandidates]
    split
    · dsimp only
      split
      · exact List.subset_cons_of_subset _ ih
      · exact List.subset_cons_of_subset _ ih
    · exact List.Subset.refl _

/-- What a walk has still to meet from line `k` on. -/
structure Ahead (s : SourceText) (k : Nat) (w : Walk) : Prop where
  classes : w.classes = (JavaScript.classes s).filter fun c => k ≤ c.1
  candidates : w.candidates ⊆ JavaScript.candidates s

theorem Ahead.openClasses {w : Walk} (h : Ahead s k w) (depth : Nat) (stack : ScopeStack) :
    JavaScript.openClasses k depth stack w.classes =
      (((((JavaScript.classes s).filter (·.1 == k)).map Prod.snd).foldl
        (fun s name => s.pushType name depth) stack),
        (JavaScript.classes s).filter fun c => k + 1 ≤ c.1) := by
  rw [h.classes, openClasses_eq ((pairwise_classes s).filter _)
    (fun c hc => by simpa using (List.mem_filter.1 hc).2), List.filter_filter, List.filter_filter]
  congr 4
  · funext c
    by_cases hc : c.1 = k <;> simp [hc]
  · funext c
    by_cases hc : k + 1 ≤ c.1
    · simp [hc, Nat.le_of_succ_le hc]
    · simp [hc]

theorem visit_line_of_not_blank {w : Walk} {line : List Char} (depth : Nat) (h : Ahead s k w)
    (hblank : ¬Text.isBlankLine line = true) :
    DeclaresOn (scopeLine s ((line, k), depth)) (headsOn s k)
        (w.stack.openLine (scopeLine s ((line, k), depth)))
        w.found (visit s w ((line, k), depth)).stack (visit s w ((line, k), depth)).found ∧
      Ahead s (k + 1) (visit s w ((line, k), depth)) := by
  have hvisit : visit s w ((line, k), depth) =
      ⟨(takeCandidates s k depth (w.stack.openLine (scopeLine s ((line, k), depth)))
        w.found w.candidates).1, (JavaScript.classes s).filter fun c => k + 1 ≤ c.1,
        (takeCandidates s k depth (w.stack.openLine (scopeLine s ((line, k), depth)))
          w.found w.candidates).2.2,
        (takeCandidates s k depth (w.stack.openLine (scopeLine s ((line, k), depth)))
          w.found w.candidates).2.1⟩ := by
    rw [visit, if_neg hblank, h.openClasses]
    rfl
  rw [hvisit]
  refine ⟨?_, rfl, List.Subset.trans takeCandidates_subset h.candidates⟩
  exact declaresOn_takeCandidates (l := scopeLine s ((line, k), depth)) fun c hc => h.candidates hc

/-- No class has its name on a blank line. -/
theorem Ahead.skip {text : List Char} {w : Walk} (h : Ahead (.ofText lexis text) k w)
    {line : List Char} (hline : (SourceText.ofText lexis text).maskedLines[k]? = some line)
    (hblank : Text.isBlankLine line = true) :
    Ahead (.ofText lexis text) (k + 1) w := by
  refine ⟨?_, h.candidates⟩
  rw [h.classes]
  refine List.filter_congr fun c hc => ?_
  obtain ⟨hnames, hne⟩ := names_of_mem_classes hc
  have hk : c.1 ≠ k := by
    rintro rfl
    have hshown := hnames.not_blank hne hline
    rw [hshown] at hblank
    cases hblank
  simp only [decide_eq_decide]
  omega

theorem trace_foldl {text : List Char} {lines : List (List Char)} {depths : List Nat} {w : Walk}
    (hlines : (SourceText.ofText lexis text).maskedLines.drop k = lines)
    (hahead : Ahead (.ofText lexis text) k w)
    (h : Trace (headsOn (.ofText lexis text)) before w.stack w.found)
    (hbefore : ∀ b ∈ before, b.number < k) :
    Trace (headsOn (.ofText lexis text))
      (before ++ (((lines.zipIdx k).zip depths).filter fun e => !Text.isBlankLine e.1.1).map
        (scopeLine (.ofText lexis text)))
      (((lines.zipIdx k).zip depths).foldl (visit (.ofText lexis text)) w).stack
      (((lines.zipIdx k).zip depths).foldl (visit (.ofText lexis text)) w).found := by
  induction lines generalizing k w before depths with
  | nil => simpa using h
  | cons line lines ih =>
    obtain ⟨hline, hlines⟩ := of_drop_eq_cons hlines
    cases depths with
    | nil => simpa using h
    | cons depth depths =>
      rw [List.zipIdx_cons, List.zip_cons_cons, List.foldl_cons]
      by_cases hblank : Text.isBlankLine line = true
      · have hvisit : visit (.ofText lexis text) w ((line, k), depth) = w := if_pos hblank
        rw [List.filter_cons_of_neg (by simp [hblank]), hvisit]
        exact ih hlines (hahead.skip hline hblank) h fun b hb => Nat.lt_succ_of_lt (hbefore b hb)
      · obtain ⟨hdeclares, hnext⟩ := visit_line_of_not_blank depth hahead hblank
        rw [List.filter_cons_of_pos (by simp [hblank]), List.map_cons, ← List.singleton_append,
          ← List.append_assoc]
        exact ih hlines hnext (.line h hbefore hdeclares) (number_lt_succ hbefore rfl)

theorem trace_walk (text : List Char) :
    ∃ stack, Trace (headsOn (.ofText lexis text)) (scopeLines (.ofText lexis text)) stack
      (walk (.ofText lexis text)).found := by
  have hahead : Ahead (.ofText lexis text) 0 (startWalk (.ofText lexis text)) := by
    refine ⟨?_, fun c hc => (List.mem_filter.1 hc).1⟩
    rw [List.filter_eq_self.2 (by simp)]
    rfl
  exact ⟨_, trace_foldl (k := 0) rfl hahead .start (by simp)⟩

end JavaScript

end CodeSurvey
