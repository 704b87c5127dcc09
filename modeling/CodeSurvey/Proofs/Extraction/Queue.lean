import CodeSurvey.Proofs.Extraction.Trace

/-!
# The queues of the walk

The walk over the lines takes classes and candidates from the front of two queues, those of the line
that it has come to. Both queues are in the order of lines and no name stands on a blank line, so
nothing is left that stands on a line above: after `k` lines the queues hold just what stands on
line `k` or below. Each candidate is taken once, on its line, and is declared then, unless it counts
only inside a class and the innermost open scope is none.
-/
namespace CodeSurvey.JavaScript

variable {s : SourceText} {k : Nat}

/-- The candidates that stand outside declarations of types. -/
def queue (s : SourceText) : List Candidate :=
  (candidates s).filter fun c => !isTypeLine (typeSpans s) c.line

/-- The lines of a text with their numbers and depths, as the walk reads them. -/
def walkLines (s : SourceText) : List ((List Char × Nat) × Nat) :=
  s.numberedLines.zip (braceDepths s.masked)

/-! ### What is taken -/

/-- A candidate that is taken on a line, and the scopes that are open then. -/
structure Taking where
  line : Nat
  candidate : Candidate
  stack : ScopeStack

namespace Taking

/-- The candidate counts only directly inside a class, and the innermost open scope is none. -/
def isRejected (t : Taking) : Bool :=
  t.candidate.classOnly && t.stack.scope != .type

/-- What is declared, under the name that the open scopes give. -/
def declared? (s : SourceText) (t : Taking) : Option Declaration :=
  if t.isRejected then none
  else some (declare s t.candidate (t.stack.qualify t.candidate.name).1 t.stack.scope)

/-- The open scopes for the next candidate of the line. -/
def after (depth : Nat) (t : Taking) : ScopeStack :=
  if t.isRejected then t.stack else t.stack.pushFunction t.candidate.name depth

end Taking

/-- What line `i` takes from the front of a queue. -/
def takingsOn (i depth : Nat) (stack : ScopeStack) : List Candidate → List Taking
  | [] => []
  | c :: rest =>
    if c.line == i then
      ⟨i, c, stack⟩ :: takingsOn i depth (Taking.after depth ⟨i, c, stack⟩) rest
    else []

/-- What one line takes. -/
def takings (w : Walk) (entry : (List Char × Nat) × Nat) : List Taking :=
  if Text.isBlankLine entry.1.1 then []
  else
    takingsOn entry.1.2 entry.2
      (openClasses entry.1.2 entry.2 (w.stack.enterLine entry.2) w.classes).1 w.candidates

/-- What the lines take one after the other. -/
def takingsAlong (s : SourceText) (w : Walk) : List ((List Char × Nat) × Nat) → List Taking
  | [] => []
  | entry :: rest => takings w entry ++ takingsAlong s (visit s w entry) rest

/-- All that is taken from the queue of a text, in order. -/
def history (s : SourceText) : List Taking :=
  takingsAlong s (startWalk s) (walkLines s)

/-- The candidates that count only inside a class and were taken outside. -/
def rejected (s : SourceText) : List Taking :=
  (history s).filter Taking.isRejected

theorem qualify_scope (stack : ScopeStack) (name : String) :
    (stack.qualify name).2 = stack.scope := by
  rw [ScopeStack.qualify]
  split <;> rfl

theorem takeCandidates_cons {i depth : Nat} {c : Candidate} (hline : c.line = i)
    (stack : ScopeStack) (found : List Declaration) (rest : List Candidate) :
    takeCandidates s i depth stack found (c :: rest) =
      takeCandidates s i depth (Taking.after depth ⟨i, c, stack⟩)
        ((Taking.declared? s ⟨i, c, stack⟩).toList ++ found) rest := by
  have hrejected : (c.classOnly && stack.scope != .type) = Taking.isRejected ⟨i, c, stack⟩ := rfl
  rw [takeCandidates, if_pos (by simp [hline])]
  simp only [qualify_scope, hrejected, Taking.after, Taking.declared?]
  cases Taking.isRejected ⟨i, c, stack⟩ <;> rfl

/-- The walk declares what is taken and not rejected, and leaves the rest of the queue. -/
theorem takeCandidates_takings (i depth : Nat) (stack : ScopeStack) (found : List Declaration)
    (cs : List Candidate) :
    (takeCandidates s i depth stack found cs).2.1.reverse =
        found.reverse ++ (takingsOn i depth stack cs).filterMap (Taking.declared? s) ∧
      (takingsOn i depth stack cs).map Taking.candidate ++
      (takeCandidates s i depth stack found cs).2.2 = cs := by
  induction cs generalizing stack found with
  | nil => simp [takeCandidates, takingsOn]
  | cons c cs ih =>
    by_cases hline : c.line = i
    · obtain ⟨hfound, hleft⟩ :=
        ih (Taking.after depth ⟨i, c, stack⟩) ((Taking.declared? s ⟨i, c, stack⟩).toList ++ found)
      rw [takeCandidates_cons hline, takingsOn, if_pos (by simp [hline]), List.map_cons,
        List.cons_append, hleft, hfound, List.filterMap_cons]
      refine ⟨?_, rfl⟩
      cases Taking.declared? s ⟨i, c, stack⟩ <;> simp
    · rw [takeCandidates, takingsOn, if_neg (by simpa using hline), if_neg (by simpa using hline)]
      simp

theorem line_of_mem_takingsOn {i depth : Nat} {stack : ScopeStack} {cs : List Candidate}
    {t : Taking} (h : t ∈ takingsOn i depth stack cs) : t.line = i ∧ t.candidate.line = i := by
  induction cs generalizing stack with
  | nil => cases h
  | cons c cs ih =>
    rw [takingsOn] at h
    split at h
    · rename_i hline
      rcases List.mem_cons.1 h with rfl | h
      · exact ⟨rfl, beq_iff_eq.1 hline⟩
      · exact ih h
    · cases h

/-- What one line does to the queue and to what has been found. -/
theorem visit_takings (s : SourceText) (w : Walk) (entry : (List Char × Nat) × Nat) :
    (visit s w entry).found.reverse = w.found.reverse ++
      (takings w entry).filterMap (Taking.declared? s) ∧
      (takings w entry).map Taking.candidate ++ (visit s w entry).candidates = w.candidates ∧
      ∀ t ∈ takings w entry, t.line = entry.1.2 ∧ t.candidate.line = entry.1.2 := by
  rw [visit, takings]
  split
  · simp
  · obtain ⟨hfound, hleft⟩ := takeCandidates_takings (s := s) _ _ _ _ _
    exact ⟨hfound, hleft, fun t ht => line_of_mem_takingsOn ht⟩

/-- What lines do to the queue and to what has been found. -/
theorem foldl_visit_takings (w : Walk) (entries : List ((List Char × Nat) × Nat)) :
    (entries.foldl (visit s) w).found.reverse =
        w.found.reverse ++ (takingsAlong s w entries).filterMap (Taking.declared? s) ∧
      (takingsAlong s w entries).map Taking.candidate ++ (entries.foldl (visit s) w).candidates =
        w.candidates ∧
      ∀ t ∈ takingsAlong s w entries, t.candidate.line = t.line := by
  induction entries generalizing w with
  | nil => simp [takingsAlong]
  | cons entry entries ih =>
    obtain ⟨hfound, hqueue, hline⟩ := visit_takings s w entry
    obtain ⟨hfounds, hqueues, hlines⟩ := ih (visit s w entry)
    rw [List.foldl_cons, takingsAlong]
    refine ⟨?_, ?_, ?_⟩
    · rw [hfounds, hfound, List.filterMap_append, List.append_assoc]
    · rw [List.map_append, List.append_assoc, hqueues, hqueue]
    · intro t ht
      rcases List.mem_append.1 ht with ht | ht
      · exact (hline t ht).2.trans (hline t ht).1.symm
      · exact hlines t ht

/-! ### What is left -/

theorem pairwise_candidates (s : SourceText) :
    (candidates s).Pairwise fun c d => c.line ≤ d.line := by
  refine (List.pairwise_mergeSort ?_ ?_ _).imp ?_
  · intro a b c hab hbc
    simp only [Bool.or_eq_true, Bool.and_eq_true, decide_eq_true_eq, beq_iff_eq] at hab hbc ⊢
    omega
  · intro a b
    simp only [Bool.or_eq_true, Bool.and_eq_true, decide_eq_true_eq, beq_iff_eq]
    omega
  · intro a b hab
    simp only [Bool.or_eq_true, Bool.and_eq_true, decide_eq_true_eq, beq_iff_eq] at hab
    omega

/-- From an ordered queue without lines above it, a line takes all that stands on it. -/
theorem left_takeCandidates {i depth : Nat} {stack : ScopeStack} {found : List Declaration}
    {cs : List Candidate} (hordered : cs.Pairwise fun c d => c.line ≤ d.line)
    (hfrom : ∀ c ∈ cs, i ≤ c.line) :
    (takeCandidates s i depth stack found cs).2.2 = cs.filter fun c => i + 1 ≤ c.line := by
  induction cs generalizing stack found with
  | nil => rfl
  | cons c cs ih =>
    obtain ⟨hc, hordered⟩ := List.pairwise_cons.1 hordered
    obtain ⟨hle, hfrom⟩ := List.forall_mem_cons.1 hfrom
    by_cases hline : c.line = i
    · rw [takeCandidates_cons hline, ih hordered hfrom, List.filter_cons_of_neg (by simp [hline])]
    · have hpast : ∀ d ∈ c :: cs, decide (i + 1 ≤ d.line) = true := by
        rintro d (_ | ⟨_, hd⟩)
        · simp only [decide_eq_true_eq]
          omega
        · have hd' := hc d hd
          simp only [decide_eq_true_eq]
          omega
      rw [takeCandidates, if_neg (by simpa using hline), List.filter_eq_self.2 hpast]

theorem length_braceDepthsFrom (depth : Nat) (lines : List (List Char)) :
    (braceDepthsFrom depth lines).length = lines.length := by
  induction lines generalizing depth with
  | nil => rfl
  | cons line lines ih => rw [braceDepthsFrom, List.length_cons, ih, List.length_cons]

theorem length_walkLines (text : List Char) :
    (walkLines (.ofText lexis text)).length =
      (SourceText.ofText lexis text).maskedLines.length := by
  have hdepths : (braceDepths (mask lexis text)).length = (Text.pieces (mask lexis text)).length :=
    length_braceDepthsFrom 0 _
  rw [walkLines, List.length_zip, SourceText.numberedLines, List.length_zipIdx]
  exact Nat.min_eq_left (Nat.le_of_eq hdepths.symm)

theorem getElem?_walkLines {entry : (List Char × Nat) × Nat} (h : (walkLines s)[k]? = some entry) :
    entry.1.2 = k ∧ s.maskedLines[k]? = some entry.1.1 := by
  obtain ⟨hline, -⟩ := List.getElem?_zip_eq_some.1 h
  rw [SourceText.numberedLines, List.getElem?_zipIdx, Option.map_eq_some_iff] at hline
  obtain ⟨line, hline, hentry⟩ := hline
  rw [← hentry]
  exact ⟨Nat.zero_add k, hline⟩

/-- What a walk has in its queues when it has come to line `k`. -/
structure Queued (s : SourceText) (k : Nat) (w : Walk) : Prop where
  classes : w.classes = (JavaScript.classes s).filter fun c => k ≤ c.1
  candidates : w.candidates = (queue s).filter fun c => k ≤ c.line

theorem Queued.ahead {w : Walk} (h : Queued s k w) : Ahead s k w := by
  refine ⟨h.classes, ?_⟩
  rw [h.candidates]
  exact fun c hc => (List.mem_filter.1 (List.mem_filter.1 hc).1).1

theorem queued_startWalk (s : SourceText) : Queued s 0 (startWalk s) := by
  constructor
  · rw [List.filter_eq_self.2 (by simp)]
    rfl
  · rw [List.filter_eq_self.2 (by simp)]
    rfl

/-- A filter for later lines, twice. -/
theorem filter_filter_line (cs : List Candidate) (k : Nat) :
    (cs.filter fun c => k ≤ c.line).filter (fun c => k + 1 ≤ c.line) =
      cs.filter fun c => k + 1 ≤ c.line := by
  rw [List.filter_filter]
  refine List.filter_congr fun c _ => ?_
  by_cases hc : k + 1 ≤ c.line
  · simp [hc, Nat.le_of_succ_le hc]
  · simp [hc]

theorem Queued.visit_of_not_blank {w : Walk} (h : Queued s k w) {line : List Char} (depth : Nat)
    (hblank : ¬Text.isBlankLine line = true) : Queued s (k + 1) (visit s w ((line, k), depth)) := by
  refine ⟨(visit_line_of_not_blank depth h.ahead hblank).2.classes, ?_⟩
  rw [visit, if_neg hblank]
  dsimp only
  rw [left_takeCandidates, h.candidates, filter_filter_line]
  · rw [h.candidates]
    exact ((pairwise_candidates s).filter _).filter _
  · rw [h.candidates]
    exact fun c hc => by simpa using (List.mem_filter.1 hc).2

variable {text : List Char}

theorem Queued.visit_of_blank {w : Walk} (h : Queued (.ofText lexis text) k w) {line : List Char}
    (hline : (SourceText.ofText lexis text).maskedLines[k]? = some line)
    (hblank : Text.isBlankLine line = true) :
    Queued (.ofText lexis text) (k + 1) w := by
  refine ⟨(h.ahead.skip hline hblank).classes, ?_⟩
  rw [h.candidates]
  refine List.filter_congr fun c hc => ?_
  obtain ⟨hnames, hne⟩ := named_of_mem_candidates (List.mem_filter.1 hc).1
  have hk : c.line ≠ k := by
    rintro rfl
    rw [hnames.not_blank hne hline] at hblank
    cases hblank
  simp only [decide_eq_decide]
  omega

theorem Queued.visit {w : Walk} (h : Queued (.ofText lexis text) k w)
    {entry : (List Char × Nat) × Nat} (hentry : (walkLines (.ofText lexis text))[k]? = some entry) :
    Queued (.ofText lexis text) (k + 1) (JavaScript.visit (.ofText lexis text) w entry) := by
  obtain ⟨⟨line, i⟩, depth⟩ := entry
  obtain ⟨rfl, hline⟩ := getElem?_walkLines hentry
  by_cases hblank : Text.isBlankLine line = true
  · rw [JavaScript.visit, if_pos hblank]
    exact h.visit_of_blank hline hblank
  · exact h.visit_of_not_blank depth hblank

theorem lt_length_of_names {line : Nat} {name : String} (h : s.Names line name) :
    line < s.maskedLines.length := by
  obtain ⟨piece, hpiece, -⟩ := h.stands
  exact (List.getElem?_eq_some_iff.1 hpiece).1

/-- Below the last line nothing waits. -/
theorem filter_queues_past (hk : (SourceText.ofText lexis text).maskedLines.length ≤ k) :
    ((classes (.ofText lexis text)).filter fun c => k ≤ c.1) = [] ∧
      ((queue (.ofText lexis text)).filter fun c => k ≤ c.line) = [] := by
  constructor
  · refine List.filter_eq_nil_iff.2 fun c hc => ?_
    have hlt := lt_length_of_names (names_of_mem_classes hc).1
    simp only [decide_eq_true_eq]
    omega
  · refine List.filter_eq_nil_iff.2 fun c hc => ?_
    have hlt := lt_length_of_names (named_of_mem_candidates (List.mem_filter.1 hc).1).1
    simp only [decide_eq_true_eq]
    omega

theorem queued_foldl (text : List Char) (k : Nat) :
    Queued (.ofText lexis text) k
      (((walkLines (.ofText lexis text)).take k).foldl (visit (.ofText lexis text))
        (startWalk (.ofText lexis text))) := by
  induction k with
  | zero => exact queued_startWalk _
  | succ k ih =>
    rw [List.take_add_one, List.foldl_append]
    cases hentry : (walkLines (.ofText lexis text))[k]? with
    | some entry => exact ih.visit hentry
    | none =>
      have hk : (SourceText.ofText lexis text).maskedLines.length ≤ k := by
        rw [← length_walkLines]
        exact List.getElem?_eq_none_iff.1 hentry
      have hnone := filter_queues_past hk
      have hnext := filter_queues_past (Nat.le_succ_of_le hk)
      constructor
      · rw [hnext.1, ← hnone.1]
        exact ih.classes
      · rw [hnext.2, ← hnone.2]
        exact ih.candidates

/-- Every candidate is taken once, in the order of the queue and on its line. -/
theorem history_takes_queue (text : List Char) :
    ((history (.ofText lexis text)).map fun t => (t.line, t.candidate)) =
      (queue (.ofText lexis text)).map fun c => (c.line, c) := by
  obtain ⟨-, hqueue, hline⟩ := foldl_visit_takings (s := .ofText lexis text) (startWalk _)
    (walkLines _)
  have hend := queued_foldl text (walkLines (.ofText lexis text)).length
  rw [List.take_length] at hend
  rw [hend.candidates, (filter_queues_past (Nat.le_of_eq (length_walkLines text).symm)).2,
    List.append_nil] at hqueue
  have hcandidates : (history (.ofText lexis text)).map Taking.candidate =
      queue (.ofText lexis text) := hqueue
  rw [← hcandidates, List.map_map]
  refine List.map_congr_left fun t ht => ?_
  rw [Function.comp_apply, hline t ht]

/-- What is taken is declared or rejected. -/
theorem length_history {found : List Declaration}
    (h : found.reverse = (history s).filterMap (Taking.declared? s)) :
    found.length + (rejected s).length = (history s).length := by
  have hdeclared : found.length = ((history s).filter fun t => !t.isRejected).length := by
    rw [← List.length_reverse, h, List.length_filterMap_eq_countP, List.countP_eq_length_filter]
    congr 2
    funext t
    rw [Taking.declared?]
    cases t.isRejected <;> rfl
  have hsplit := List.length_eq_length_filter_add (l := history s) Taking.isRejected
  rw [hdeclared, rejected]
  omega

/-- The walk over a text loses nothing. When it has come to line `k`, its queues hold just the
classes and the candidates of line `k` and below, so after the last line none. Each candidate
outside declarations of types is taken once, on its line and in order, and is declared or rejected
then. -/
theorem walk_takes_each (text : List Char) :
    let s := SourceText.ofText lexis text
    (∀ k, Queued s k (((walkLines s).take k).foldl (visit s) (startWalk s))) ∧
      (walk s).classes = [] ∧ (walk s).candidates = [] ∧
      ((history s).map fun t => (t.line, t.candidate)) = (queue s).map (fun c => (c.line, c)) ∧
      (walk s).found.reverse = (history s).filterMap (Taking.declared? s) ∧
      (walk s).found.length + (rejected s).length = (queue s).length := by
  intro s
  have hfound : (walk s).found.reverse = (history s).filterMap (Taking.declared? s) :=
    (foldl_visit_takings (startWalk s) (walkLines s)).1
  have hend := queued_foldl text (walkLines s).length
  rw [List.take_length] at hend
  obtain ⟨hclasses, hcandidates⟩ := filter_queues_past (Nat.le_of_eq (length_walkLines text).symm)
  have hlength := congrArg List.length (history_takes_queue text)
  rw [List.length_map, List.length_map] at hlength
  refine ⟨queued_foldl text, hend.classes.trans hclasses, hend.candidates.trans hcandidates,
    history_takes_queue text, hfound, ?_⟩
  rw [length_history hfound]
  exact hlength

end CodeSurvey.JavaScript
