import CodeSurvey.Proofs.Extraction.Identity
import CodeSurvey.Proofs.Extraction.Trace

/-!
# Attribution

The name and the scope of a function depend on the heads above it and on the depths of the lines
down to it. What the lines between two places open lies on top of what was open at the first of
them, and the lowest of these lines decides how much of that is left. So two surroundings of the
same lines can be compared function by function.
-/
namespace CodeSurvey

/-- A line as attribution sees it: its number, its depth, and the type or the function whose head
stands on it. -/
structure HeadedLine where
  number : Nat
  depth : Nat
  head : Option (FrameKind × String)
  deriving DecidableEq, Repr

namespace HeadedLine

/-- The scope that the head opens. -/
def frame? (l : HeadedLine) : Option Frame :=
  l.head.map fun h => ⟨h.1, h.2, l.depth⟩

/-- The function whose head stands on the line. -/
def function? (l : HeadedLine) : Option String :=
  (l.head.filter (·.1 == .function)).map Prod.snd

theorem function?_eq_some_iff {l : HeadedLine} {name : String} :
    l.function? = some name ↔ l.head = some (.function, name) := by
  rw [function?]
  cases hhead : l.head with
  | none => simp
  | some head =>
    obtain ⟨kind, other⟩ := head
    cases kind <;> simp

/-- The depth of the lowest of the lines and of a line at `depth` below them. -/
def floor (depth : Nat) (lines : List HeadedLine) : Nat :=
  (lines.map HeadedLine.depth).foldr min depth

theorem floor_cons (depth : Nat) (l : HeadedLine) (lines : List HeadedLine) :
    floor depth (l :: lines) = min l.depth (floor depth lines) :=
  rfl

end HeadedLine

namespace ScopeStack

/-- Inner scopes are not shallower than outer ones. -/
def Ordered (s : ScopeStack) : Prop :=
  s.frames.Pairwise fun f g => g.depth ≤ f.depth

/-- Enters a line and opens the scope of its head. -/
def read (s : ScopeStack) (l : HeadedLine) : ScopeStack :=
  ⟨l.frame?.toList ++ (s.enterLine l.depth).frames⟩

/-- The name, the line and the scope of the function that a line declares. -/
def attribution? (s : ScopeStack) (l : HeadedLine) : Option (String × Nat × ScopeKind) :=
  l.function?.map fun name =>
    (((s.enterLine l.depth).qualify name).1, l.number + 1, ((s.enterLine l.depth).qualify name).2)

/-- The functions that some lines declare, each inside the scopes that are open then. -/
def attributions (s : ScopeStack) : List HeadedLine → List (String × Nat × ScopeKind)
  | [] => []
  | l :: lines => (s.attribution? l).toList ++ attributions (s.read l) lines

/-- Some scopes inside others. -/
def inside (inner outer : ScopeStack) : ScopeStack :=
  ⟨inner.frames ++ outer.frames⟩

variable {s t : ScopeStack}

/-! ### What is open after some lines -/

theorem ordered_empty : empty.Ordered :=
  .nil

namespace Ordered

theorem enterLine (h : s.Ordered) (depth : Nat) : (s.enterLine depth).Ordered := by
  rw [enterLine_eq_filter h]
  exact h.filter _

theorem read (h : s.Ordered) (l : HeadedLine) : (s.read l).Ordered := by
  rw [Ordered, ScopeStack.read]
  cases hframe : l.frame? with
  | none => exact h.enterLine l.depth
  | some frame =>
    refine .cons ?_ (h.enterLine l.depth)
    intro f hf
    replace hf : f ∈ (s.enterLine l.depth).frames := hf
    rw [enterLine_eq_filter h, List.mem_filter, decide_eq_true_eq] at hf
    obtain ⟨head, -, rfl⟩ := Option.map_eq_some_iff.1 hframe
    exact Nat.le_of_lt hf.2

theorem foldl_read (h : s.Ordered) (lines : List HeadedLine) :
    (lines.foldl ScopeStack.read s).Ordered := by
  induction lines generalizing s with
  | nil => exact h
  | cons l lines ih => exact ih (h.read l)

/-- A second line closes what the lower of the two does not enclose. -/
theorem enterLine_enterLine (h : s.Ordered) (depth next : Nat) :
    (s.enterLine depth).enterLine next = s.enterLine (min depth next) := by
  rw [enterLine_eq_filter (h.enterLine depth), enterLine_eq_filter h, enterLine_eq_filter h,
    List.filter_filter]
  congr 2
  funext f
  rw [← Bool.decide_and, decide_eq_decide]
  omega

theorem enterLine_read (h : s.Ordered) (l : HeadedLine) (depth : Nat) :
    (s.read l).enterLine depth =
      inside ⟨l.frame?.toList.filter (·.depth < depth)⟩ (s.enterLine (min l.depth depth)) := by
  rw [enterLine_eq_filter (h.read l), ← h.enterLine_enterLine,
    enterLine_eq_filter (h.enterLine l.depth), ScopeStack.read, List.filter_append, inside]

/-- What the lines open lies on top of what the lowest of them leaves open. -/
theorem enterLine_foldl_read (h : s.Ordered) (lines : List HeadedLine) (depth : Nat) :
    (lines.foldl ScopeStack.read s).enterLine depth =
      inside ((lines.foldl ScopeStack.read .empty).enterLine depth)
        (s.enterLine (HeadedLine.floor depth lines)) := by
  induction lines generalizing s with
  | nil => rfl
  | cons l lines ih =>
    have hempty : ∀ d, empty.enterLine d = empty := fun _ => rfl
    rw [List.foldl_cons, ih (h.read l), List.foldl_cons, ih (ordered_empty.read l),
      h.enterLine_read, ordered_empty.enterLine_read, hempty, HeadedLine.floor_cons]
    simp only [inside, empty, List.append_nil, List.append_assoc]

end Ordered

theorem scope_inside (inner outer : ScopeStack) :
    (inside inner outer).scope = if inner.frames = [] then outer.scope else inner.scope := by
  obtain ⟨frames⟩ := inner
  cases frames <;> rfl

theorem owner?_inside (inner outer : ScopeStack) :
    (inside inner outer).owner? = inner.owner?.or outer.owner? := by
  rw [owner?, inside, List.find?_append, Option.map_or, owner?, owner?]

/-! ### Two surroundings of the same lines -/

/-- A qualified name and a scope tell the innermost type and the innermost scope. -/
theorem qualify_eq_iff (name : String) :
    s.qualify name = t.qualify name ↔ s.owner? = t.owner? ∧ s.scope = t.scope := by
  have hlonger : ∀ owner : String, owner ++ "." ++ name ≠ name := by
    intro owner h
    have hlength := congrArg (fun n : String => n.toList.length) h
    simp only [String.toList_append, List.length_append] at hlength
    have hdot : (".".toList).length = 1 := rfl
    omega
  have hcancel : ∀ owner other : String, owner ++ "." ++ name = other ++ "." ++ name ↔
      owner = other := by
    intro owner other
    simp [← String.toList_inj, String.toList_append]
  rw [qualify, qualify]
  cases s.owner? with
  | none =>
    cases t.owner? with
    | none => simp
    | some other => simp [Ne.symm (hlonger other)]
  | some owner =>
    cases t.owner? with
    | none => simp [hlonger owner]
    | some other => simp [hcancel]

/-- Each function on the lines gets the same name and scope in both surroundings: a function that
stands in no scope opened since has the same innermost scope around it, and one that stands in no
type opened since has the same innermost type. -/
def AgreeOn (s t : ScopeStack) (lines : List HeadedLine) : Prop :=
  ∀ above l below name, lines = above ++ l :: below → l.head = some (.function, name) →
    let inner := (above.foldl read .empty).enterLine l.depth
    let floor := HeadedLine.floor l.depth above
    (inner.frames = [] → (s.enterLine floor).scope = (t.enterLine floor).scope) ∧
      (inner.owner? = none → (s.enterLine floor).owner? = (t.enterLine floor).owner?)

theorem attribution?_eq_iff (hs : s.Ordered) (ht : t.Ordered) (above : List HeadedLine)
    (l : HeadedLine) :
    (above.foldl read s).attribution? l = (above.foldl read t).attribution? l ↔
      ∀ name, l.head = some (.function, name) →
        let inner := (above.foldl read .empty).enterLine l.depth
        let floor := HeadedLine.floor l.depth above
        (inner.frames = [] → (s.enterLine floor).scope = (t.enterLine floor).scope) ∧
          (inner.owner? = none → (s.enterLine floor).owner? = (t.enterLine floor).owner?) := by
  simp only [← HeadedLine.function?_eq_some_iff, attribution?]
  cases l.function? with
  | none => simp
  | some name =>
    have hpair : ∀ a b : String × ScopeKind, (a.1, l.number + 1, a.2) = (b.1, l.number + 1, b.2) ↔
        a = b := by
      simp [Prod.ext_iff]
    simp only [Option.map_some, Option.some_inj, hpair, forall_eq', qualify_eq_iff,
      hs.enterLine_foldl_read, ht.enterLine_foldl_read, owner?_inside, scope_inside]
    rw [and_comm]
    refine and_congr ?_ ?_
    · by_cases hinner : ((above.foldl read .empty).enterLine l.depth).frames = []
      · simp [hinner]
      · simp [hinner]
    · cases ((above.foldl read .empty).enterLine l.depth).owner? <;> simp

/-- Two surroundings attribute the functions of some lines alike if and only if they do so on each
line. -/
theorem attributions_eq_iff_forall (lines : List HeadedLine) :
    attributions s lines = attributions t lines ↔ ∀ above l below, lines = above ++ l :: below →
      (above.foldl read s).attribution? l = (above.foldl read t).attribution? l := by
  induction lines generalizing s t with
  | nil => simp [attributions]
  | cons l lines ih =>
    have hlength : (s.attribution? l).toList.length = (t.attribution? l).toList.length := by
      rw [attribution?, attribution?]
      cases l.function? <;> rfl
    constructor
    · intro h above k below hlines
      obtain ⟨hhere, hrest⟩ := List.append_inj h hlength
      cases above with
      | nil =>
        obtain ⟨rfl, -⟩ := List.cons.inj hlines
        simpa using congrArg List.head? hhere
      | cons a above =>
        obtain ⟨rfl, hmore⟩ := List.cons.inj hlines
        exact ih.1 hrest above k below hmore
    · intro h
      have hhere := h [] l lines rfl
      have hrest := ih.2 fun above k below hlines => h (l :: above) k below
        (congrArg (l :: ·) hlines)
      rw [attributions, attributions, hrest]
      exact congrArg (fun o => Option.toList o ++ _) hhere

theorem attributions_eq_iff (hs : s.Ordered) (ht : t.Ordered) (lines : List HeadedLine) :
    attributions s lines = attributions t lines ↔ AgreeOn s t lines := by
  simp only [attributions_eq_iff_forall, attribution?_eq_iff hs ht]
  constructor
  · intro h above l below name hlines hhead
    exact h above l below hlines name hhead
  · intro h above l below hlines name hhead
    exact h above l below name hlines hhead

/-- Names and scopes alone tell two attributions of the same lines apart. -/
theorem attributions_eq_iff_map (lines : List HeadedLine) :
    attributions s lines = attributions t lines ↔
      (attributions s lines).map (fun a => (a.1, a.2.2)) =
        (attributions t lines).map fun a => (a.1, a.2.2) := by
  refine ⟨congrArg _, fun h => ?_⟩
  induction lines generalizing s t with
  | nil => rfl
  | cons l lines ih =>
    rw [attributions, attributions] at h ⊢
    rw [attribution?, attribution?] at h ⊢
    generalize l.function? = function at h ⊢
    cases function with
    | none => exact ih h
    | some name =>
      simp only [Option.map_some, Option.toList_some, List.singleton_append, List.map_cons,
        List.cons.injEq, Prod.mk.injEq] at h ⊢
      exact ⟨⟨h.1.1, trivial, h.1.2⟩, ih h.2⟩

/-- Counting the lines from elsewhere changes no name and no scope. -/
theorem map_attributions_renumber (s : ScopeStack) (renumber : Nat → Nat)
    (lines : List HeadedLine) :
    (attributions s (lines.map fun l => { l with number := renumber l.number })).map
      (fun a => (a.1, a.2.2)) =
      (attributions s lines).map fun a => (a.1, a.2.2) := by
  induction lines generalizing s with
  | nil => rfl
  | cons l lines ih =>
    rw [List.map_cons, attributions, List.map_append, attributions, List.map_append]
    congr 1
    · simp only [attribution?, HeadedLine.function?]
      cases l.head.filter (·.1 == .function) <;> rfl
    · exact ih (s.read l)

theorem attributions_append (s : ScopeStack) (lines more : List HeadedLine) :
    attributions s (lines ++ more) = attributions s lines ++
      attributions (lines.foldl read s) more := by
  induction lines generalizing s with
  | nil => rfl
  | cons l lines ih =>
    rw [List.cons_append, attributions, ih, attributions, List.append_assoc, List.foldl_cons]

/-- A line without a head only closes scopes. -/
theorem read_plain (s : ScopeStack) (number depth : Nat) :
    s.read ⟨number, depth, none⟩ = s.enterLine depth :=
  rfl

end ScopeStack

/-! ### What the walks attribute -/

private theorem reverse_toList {α : Type} (o : Option α) : o.toList.reverse = o.toList := by
  cases o <;> rfl

namespace Python

/-- A class head comes before a function head. -/
def headedLine (s : SourceText) (entry : List Char × Nat) : HeadedLine where
  number := entry.2
  depth := indentWidth entry.1
  head := ((classHead.matchHead? entry.1).map fun m => (.type, m.string "name")).or
    ((head? s entry.2 entry.1).map fun h => (.function, h.name))

/-- The lines that take part in scopes. -/
def headedLines (text : List Char) : List HeadedLine :=
  let s := SourceText.ofText lexis text
  (logicalLines s 0 s.numberedLines).map (headedLine s)

/-- Every function of a text, also where its name comes again. -/
def allDeclarations (text : List Char) : List Declaration :=
  let s := SourceText.ofText lexis text
  (s.numberedLines.foldl (visit s) ⟨.empty, 0, []⟩).found.reverse

theorem declarations_eq (text : List Char) :
    declarations text = Declaration.firstOfEachName (allDeclarations text) :=
  rfl

theorem visit_headed {s : SourceText} {w : Walk} {line : List Char} {i : Nat}
    (h : ¬(i < w.resume || Text.isBlankLine line) = true) :
    (visit s w (line, i)).stack = w.stack.read (headedLine s (line, i)) ∧
      (visit s w (line, i)).resume = resumeAfter s w.resume line i ∧
      (visit s w (line, i)).found.map Declaration.identity =
        (w.stack.attribution? (headedLine s (line, i))).toList ++
        w.found.map Declaration.identity := by
  rw [visit, if_neg h, resumeAfter, functionOn?]
  dsimp only
  rw [headedLine]
  cases hclass : classHead.matchHead? line with
  | some m => exact ⟨rfl, rfl, rfl⟩
  | none =>
    cases hhead : head? s i line with
    | none => exact ⟨rfl, rfl, rfl⟩
    | some head => exact ⟨rfl, rfl, rfl⟩

theorem identity_foldl_visit (s : SourceText) (lines : List (List Char × Nat)) (w : Walk) :
    (lines.foldl (visit s) w).found.reverse.map Declaration.identity =
      w.found.reverse.map Declaration.identity ++
        w.stack.attributions ((logicalLines s w.resume lines).map (headedLine s)) := by
  induction lines generalizing w with
  | nil => simp [logicalLines, ScopeStack.attributions]
  | cons entry lines ih =>
    obtain ⟨line, i⟩ := entry
    rw [List.foldl_cons, ih, logicalLines]
    by_cases hskip : (i < w.resume || Text.isBlankLine line) = true
    · rw [if_pos hskip, visit, if_pos hskip]
    · obtain ⟨hstack, hresume, hfound⟩ := visit_headed (s := s) hskip
      rw [if_neg hskip, List.map_cons, ScopeStack.attributions, hstack, hresume, List.map_reverse,
        hfound, List.reverse_append, reverse_toList, ← List.map_reverse, List.append_assoc]

theorem identity_allDeclarations (text : List Char) :
    (allDeclarations text).map Declaration.identity =
      ScopeStack.empty.attributions (headedLines text) :=
  identity_foldl_visit _ _ _

end Python

namespace Swift

/-- A type head comes before a function head. -/
def headedLine (s : SourceText) (entry : (List Char × Nat) × Nat) : HeadedLine where
  number := entry.1.2
  depth := entry.2
  head := ((typeName? entry.1.1).map fun name => (.type, name)).or
    ((head? s entry.1.2 entry.1.1).map fun h => (.function, h.name))

/-- The lines that take part in scopes are those that are not blank. -/
def headedLines (text : List Char) : List HeadedLine :=
  let s := SourceText.ofText lexis text
  ((s.numberedLines.zip (braceDepths s.masked)).filter fun e => !Text.isBlankLine e.1.1).map
    (headedLine s)

/-- Every function of a text, also where its name comes again. -/
def allDeclarations (text : List Char) : List Declaration :=
  let s := SourceText.ofText lexis text
  ((s.numberedLines.zip (braceDepths s.masked)).foldl (visit s) ⟨.empty, []⟩).found.reverse

theorem declarations_eq (text : List Char) :
    declarations text = Declaration.firstOfEachName (allDeclarations text) :=
  rfl

theorem visit_headed {s : SourceText} {w : Walk} {line : List Char} {i depth : Nat}
    (h : ¬Text.isBlankLine line = true) :
    (visit s w ((line, i), depth)).stack = w.stack.read (headedLine s ((line, i), depth)) ∧
      (visit s w ((line, i), depth)).found.map Declaration.identity =
        (w.stack.attribution? (headedLine s ((line, i), depth))).toList ++
        w.found.map Declaration.identity := by
  rw [visit, if_neg h]
  dsimp only
  rw [headedLine]
  cases htype : typeName? line with
  | some name => exact ⟨rfl, rfl⟩
  | none =>
    cases hhead : head? s i line with
    | none => exact ⟨rfl, rfl⟩
    | some head => exact ⟨rfl, rfl⟩

theorem identity_foldl_visit (s : SourceText) (lines : List ((List Char × Nat) × Nat)) (w : Walk) :
    (lines.foldl (visit s) w).found.reverse.map Declaration.identity =
      w.found.reverse.map Declaration.identity ++
        w.stack.attributions ((lines.filter fun e => !Text.isBlankLine e.1.1).map
          (headedLine s)) := by
  induction lines generalizing w with
  | nil => simp [ScopeStack.attributions]
  | cons entry lines ih =>
    obtain ⟨⟨line, i⟩, depth⟩ := entry
    rw [List.foldl_cons, ih]
    by_cases hblank : Text.isBlankLine line = true
    · rw [List.filter_cons_of_neg (by simp [hblank]), visit, if_pos hblank]
    · obtain ⟨hstack, hfound⟩ := visit_headed (s := s) hblank
      rw [List.filter_cons_of_pos (by simp [hblank]), List.map_cons, ScopeStack.attributions,
        hstack, List.map_reverse, hfound, List.reverse_append, reverse_toList, ← List.map_reverse,
        List.append_assoc]

theorem identity_allDeclarations (text : List Char) :
    (allDeclarations text).map Declaration.identity =
      ScopeStack.empty.attributions (headedLines text) :=
  identity_foldl_visit _ _ _

end Swift

end CodeSurvey
