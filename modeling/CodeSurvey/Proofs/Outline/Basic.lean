import CodeSurvey.Proofs.Scope

/-!
# Outlines

An outline is a forest of nested types and functions. It is written line by line: each item has a
head, the lines of its body one level deeper, and perhaps a line that fills or closes the body. A
stack of scopes that is kept along these lines, by their levels, places every function where the
outline has it, as far as the heads around it can be read.
-/
namespace CodeSurvey

/-- A type or a function, with what its head says. -/
inductive OutlineItem (τ φ : Type) where
  | type (head : τ)
  | function (head : φ)

/-- Items in the order of a text: each has a body, and others follow it. -/
inductive Outline (τ φ : Type) where
  | nil
  | item (head : OutlineItem τ φ) (body next : Outline τ φ)

/-- A line of a written outline. -/
inductive OutlineLine (τ φ : Type) where
  | head (level : Nat) (item : OutlineItem τ φ)
  /-- Stands at the end of a body, as deep as the items in it. -/
  | filler (level : Nat)

/-- How items are named, and how a language tells levels apart. An item without a name has a head
that is not read: it is no scope, and a function like that is not found. -/
structure OutlineStyle (τ φ : Type) where
  typeName? : τ → Option String
  functionName? : φ → Option String
  /-- Whether a body ends in a filler, by whether it is empty. -/
  fills : Bool → Bool
  /-- The depth of one level, in columns or in braces. -/
  unit : Nat
  unit_pos : 0 < unit

/-- Where items stand: the name of the nearest type and the kind of the nearest item around them,
among those that are read, and the number of all items around them. -/
structure OutlinePlace where
  owner? : Option String
  scope : ScopeKind
  level : Nat

/-- A function of an outline. Its line is counted from zero. -/
structure OutlineFunction (τ φ : Type) where
  place : OutlinePlace
  line : Nat
  head : φ
  body : Outline τ φ

variable {τ φ : Type}

def OutlineLine.level : OutlineLine τ φ → Nat
  | .head level _ => level
  | .filler level => level

namespace OutlinePlace

/-- Outside of all items. -/
def top : OutlinePlace :=
  ⟨none, .module, 0⟩

/-- Inside the body of an item. -/
def inside (style : OutlineStyle τ φ) (place : OutlinePlace) : OutlineItem τ φ → OutlinePlace
  | .type head =>
    match style.typeName? head with
    | some name => ⟨some name, .type, place.level + 1⟩
    | none => ⟨place.owner?, place.scope, place.level + 1⟩
  | .function head =>
    match style.functionName? head with
    | some _ => ⟨place.owner?, .nested, place.level + 1⟩
    | none => ⟨place.owner?, place.scope, place.level + 1⟩

/-- A name with that of the nearest type in front. -/
def qualify (place : OutlinePlace) (name : String) : String :=
  match place.owner? with
  | some owner => owner ++ "." ++ name
  | none => name

end OutlinePlace

namespace Outline

def isNil : Outline τ φ → Bool
  | .nil => true
  | .item .. => false

def items : Outline τ φ → List (OutlineItem τ φ)
  | .nil => []
  | .item head body next => head :: (body.items ++ next.items)

/-- The lines of an outline at a level. -/
def lines (style : OutlineStyle τ φ) (level : Nat) : Outline τ φ → List (OutlineLine τ φ)
  | .nil => []
  | .item head body next =>
    .head level head ::
      (body.lines style (level + 1) ++
        (if style.fills body.isNil then [.filler (level + 1)] else []) ++
        next.lines style level)

/-- The lines of the body of an item. -/
def block (style : OutlineStyle τ φ) (level : Nat) (body : Outline τ φ) : List (OutlineLine τ φ) :=
  body.lines style (level + 1) ++ if style.fills body.isNil then [.filler (level + 1)] else []

/-- The function that an item is, if it is one. -/
def ofItem (place : OutlinePlace) (line : Nat) (body : Outline τ φ) :
    OutlineItem τ φ → List (OutlineFunction τ φ)
  | .type _ => []
  | .function head => [⟨place, line, head, body⟩]

/-- The functions of an outline that starts on a line, in the order of their lines. -/
def functions (style : OutlineStyle τ φ) (place : OutlinePlace) (line : Nat) :
    Outline τ φ → List (OutlineFunction τ φ)
  | .nil => []
  | .item head body next =>
    ofItem place line body head ++ body.functions style (place.inside style head) (line + 1) ++
      next.functions style place (line + (1 + (body.block style place.level).length))

end Outline

/-- The lines of a function, from its head to the end of its body. -/
def OutlineFunction.lines (style : OutlineStyle τ φ) (f : OutlineFunction τ φ) :
    List (OutlineLine τ φ) :=
  .head f.place.level (.function f.head) :: f.body.block style f.place.level

namespace Outline

variable {style : OutlineStyle τ φ} {o : Outline τ φ} {place : OutlinePlace} {line level : Nat}

theorem lines_item (level : Nat) (head : OutlineItem τ φ) (body next : Outline τ φ) :
    (item head body next).lines style level =
      .head level head :: (body.block style level ++ next.lines style level) :=
  rfl

theorem le_level_of_mem_lines {l : OutlineLine τ φ} (h : l ∈ o.lines style level) :
    level ≤ l.level := by
  induction o generalizing level with
  | nil => cases h
  | item head body next ihBody ihNext =>
    rw [lines_item, List.mem_cons, List.mem_append, block, List.mem_append] at h
    rcases h with rfl | (h | h) | h
    · exact Nat.le_refl level
    · exact Nat.le_of_succ_le (ihBody h)
    · split at h
      · rw [List.mem_singleton.1 h]
        exact Nat.le_succ level
      · cases h
    · exact ihNext h

theorem lt_level_of_mem_block {body : Outline τ φ} {l : OutlineLine τ φ}
    (h : l ∈ body.block style level) :
    level < l.level := by
  rw [block, List.mem_append] at h
  rcases h with h | h
  · exact le_level_of_mem_lines h
  · split at h
    · rw [List.mem_singleton.1 h]
      exact Nat.lt_succ_self level
    · cases h

theorem level_inside (place : OutlinePlace) (head : OutlineItem τ φ) :
    (place.inside style head).level = place.level + 1 := by
  cases head with
  | type head => rw [OutlinePlace.inside]; cases style.typeName? head <;> rfl
  | function head => rw [OutlinePlace.inside]; cases style.functionName? head <;> rfl

/-! ### Two styles -/

theorem lines_congr {other : OutlineStyle τ φ} (hfills : other.fills = style.fills) (level : Nat)
    (o : Outline τ φ) : o.lines other level = o.lines style level := by
  induction o generalizing level with
  | nil => rfl
  | item head body next ihBody ihNext => rw [lines, lines, ihBody, ihNext, hfills]

/-- Styles that fill bodies alike and agree on the items of an outline agree on its functions. -/
theorem functions_congr {other : OutlineStyle τ φ} (hfills : other.fills = style.fills)
    (h : ∀ item ∈ o.items, ∀ place : OutlinePlace, place.inside other item =
      place.inside style item) (place : OutlinePlace) (line : Nat) :
    o.functions other place line = o.functions style place line := by
  induction o generalizing place line with
  | nil => rfl
  | item head body next ihBody ihNext =>
    rw [items, List.forall_mem_cons, List.forall_mem_append] at h
    obtain ⟨hhead, hbody, hnext⟩ := h
    rw [functions, functions, block, block, lines_congr hfills, hfills, hhead, ihBody hbody,
      ihNext hnext]

/-! ### Functions among the lines -/

theorem function_mem_items {f : OutlineFunction τ φ} (h : f ∈ o.functions style place line) :
    .function f.head ∈ o.items := by
  induction o generalizing place line with
  | nil => cases h
  | item head body next ihBody ihNext =>
    rw [functions, List.mem_append, List.mem_append] at h
    rw [items, List.mem_cons, List.mem_append]
    rcases h with (h | h) | h
    · cases head with
      | type => cases h
      | function =>
        obtain rfl := List.mem_singleton.1 h
        exact .inl rfl
    · exact .inr (.inl (ihBody h))
    · exact .inr (.inr (ihNext h))

theorem level_le_of_mem_functions {f : OutlineFunction τ φ} (h : f ∈ o.functions style place line) :
    place.level ≤ f.place.level := by
  induction o generalizing place line with
  | nil => cases h
  | item head body next ihBody ihNext =>
    rw [functions, List.mem_append, List.mem_append] at h
    rcases h with (h | h) | h
    · cases head with
      | type => cases h
      | function =>
        obtain rfl := List.mem_singleton.1 h
        exact Nat.le_refl _
    · have hbody := ihBody h
      rw [level_inside] at hbody
      exact Nat.le_of_succ_le hbody
    · exact ihNext h

/-- The lines of a function stand on its line among those of the outline, and the line after them is
not deeper than its head. -/
theorem exists_lines_of_mem_functions {f : OutlineFunction τ φ}
    (h : f ∈ o.functions style place line) :
    ∃ before after, o.lines style place.level = before ++ (f.lines style ++ after) ∧
      f.line = line + before.length ∧ ∀ l ∈ after.head?, l.level ≤ f.place.level := by
  induction o generalizing place line with
  | nil => cases h
  | item head body next ihBody ihNext =>
    have hnext : ∀ l ∈ (next.lines style place.level).head?, l.level ≤ place.level := by
      cases next with
      | nil => simp [lines]
      | item => simp [lines_item, OutlineLine.level]
    rw [functions, List.mem_append, List.mem_append] at h
    rcases h with (h | h) | h
    · cases head with
      | type => cases h
      | function g =>
        obtain rfl := List.mem_singleton.1 h
        exact ⟨[], next.lines style place.level, rfl, rfl, hnext⟩
    · -- After a function at the end of the body comes the filler or the next item, neither of which
      -- is deeper.
      have hdeep := level_le_of_mem_functions h
      obtain ⟨before, after, hlines, hline, hafter⟩ := ihBody h
      rw [level_inside] at hlines hdeep
      refine ⟨.head place.level head :: before,
        after ++ ((if style.fills body.isNil then [.filler (place.level + 1)] else []) ++
          next.lines style place.level), ?_, ?_, ?_⟩
      · rw [lines_item, block, hlines]
        simp only [List.cons_append, List.append_assoc]
      · rw [hline, List.length_cons]
        omega
      · intro l hl
        cases after with
        | cons l' after => exact hafter l hl
        | nil =>
          rw [List.nil_append] at hl
          split at hl
          · obtain rfl := Option.mem_some.1 hl
            exact hdeep
          · have hle := hnext l hl
            omega
    · obtain ⟨before, after, hlines, hline, hafter⟩ := ihNext h
      refine ⟨.head place.level head :: (body.block style place.level ++ before), after, ?_, ?_,
        hafter⟩
      · rw [lines_item, hlines]
        simp only [List.cons_append, List.append_assoc]
      · rw [hline, List.length_cons, List.length_append]
        omega

end Outline

/-! ### The stack of scopes along the lines -/

namespace ScopeStack

/-- Entering a deeper line first does not matter. -/
theorem enterLine_enterLine (s : ScopeStack) {depth deeper : Nat} (h : depth ≤ deeper) :
    (s.enterLine deeper).enterLine depth = s.enterLine depth := by
  obtain ⟨frames⟩ := s
  rw [enterLine, enterLine, enterLine]
  congr 1
  induction frames with
  | nil => rfl
  | cons f frames ih =>
    by_cases hf : deeper ≤ f.depth
    · rw [List.dropWhile_cons_of_pos (by simpa using hf), ih,
        List.dropWhile_cons_of_pos (by simpa using Nat.le_trans h hf)]
    · rw [List.dropWhile_cons_of_neg (by simpa using hf)]

/-- A line closes nothing that a shallower one has left open. -/
theorem enterLine_enterLine_of_le (s : ScopeStack) {depth deeper : Nat} (h : depth ≤ deeper) :
    (s.enterLine depth).enterLine deeper = s.enterLine depth := by
  obtain ⟨frames⟩ := s
  rw [enterLine, enterLine]
  congr 1
  induction frames with
  | nil => rfl
  | cons f frames ih =>
    by_cases hf : depth ≤ f.depth
    · rw [List.dropWhile_cons_of_pos (by simpa using hf), ih]
    · rw [List.dropWhile_cons_of_neg (by simpa using hf),
        List.dropWhile_cons_of_neg (by simp; omega)]

theorem enterLine_push_of_le (s : ScopeStack) (kind : FrameKind) (name : String) {depth line : Nat}
    (h : line ≤ depth) : (s.push kind name depth).enterLine line = s.enterLine line := by
  rw [enterLine, push, List.dropWhile_cons_of_pos (by simpa using h)]
  rfl

theorem enterLine_push_of_lt (s : ScopeStack) (kind : FrameKind) (name : String) {depth line : Nat}
    (h : depth < line) : (s.push kind name depth).enterLine line = s.push kind name depth := by
  rw [enterLine, push, List.dropWhile_cons_of_neg (by simpa using h)]

/-- The scopes on a stack are those around a place. -/
structure IsAt (s : ScopeStack) (place : OutlinePlace) : Prop where
  owner : s.owner? = place.owner?
  scope : s.scope = place.scope

theorem isAt_top : ScopeStack.empty.IsAt .top :=
  ⟨rfl, rfl⟩

theorem IsAt.qualify {s : ScopeStack} {place : OutlinePlace} (h : s.IsAt place) (name : String) :
    s.qualify name = (place.qualify name, place.scope) := by
  rw [ScopeStack.qualify, OutlinePlace.qualify, h.owner, h.scope]
  cases place.owner? <;> rfl

end ScopeStack

/-- The open scopes at a line, its number, and the functions found above it, the last one first. -/
structure OutlineWalk (φ : Type) where
  stack : ScopeStack
  line : Nat
  found : List ((String × ScopeKind) × Nat × φ)

/-- What a walk finds of a function, if its head is read. -/
def OutlineFunction.found? (style : OutlineStyle τ φ) (f : OutlineFunction τ φ) :
    Option ((String × ScopeKind) × Nat × φ) :=
  (style.functionName? f.head).map fun name =>
    ((f.place.qualify name, f.place.scope), f.line, f.head)

namespace OutlineWalk

def start : OutlineWalk φ :=
  ⟨.empty, 0, []⟩

/-- Reads the head of an item inside the scopes of `stack`. -/
def read (style : OutlineStyle τ φ) (w : OutlineWalk φ) (stack : ScopeStack) (depth : Nat) :
    OutlineItem τ φ → OutlineWalk φ
  | .type head =>
    match style.typeName? head with
    | some name => ⟨stack.pushType name depth, w.line + 1, w.found⟩
    | none => ⟨stack, w.line + 1, w.found⟩
  | .function head =>
    match style.functionName? head with
    | some name =>
      ⟨stack.pushFunction name depth, w.line + 1, (stack.qualify name, w.line, head) :: w.found⟩
    | none => ⟨stack, w.line + 1, w.found⟩

def visit (style : OutlineStyle τ φ) (w : OutlineWalk φ) : OutlineLine τ φ → OutlineWalk φ
  | .head level item =>
    w.read style (w.stack.enterLine (style.unit * level)) (style.unit * level) item
  | .filler level => ⟨w.stack.enterLine (style.unit * level), w.line + 1, w.found⟩

/-- Lines at a place lead from one state of the walk to another: the functions on them are found,
and the scopes around them are open again. -/
structure Passes (style : OutlineStyle τ φ) (place : OutlinePlace) (length : Nat)
    (fs : List (OutlineFunction τ φ)) (w v : OutlineWalk φ) : Prop where
  stack : v.stack.enterLine (style.unit * place.level) =
    w.stack.enterLine (style.unit * place.level)
  line : v.line = w.line + length
  found : v.found = (fs.filterMap (OutlineFunction.found? style)).reverse ++ w.found

variable {style : OutlineStyle τ φ} {place : OutlinePlace} {u v w : OutlineWalk φ} {m n : Nat}
  {fs gs : List (OutlineFunction τ φ)} {stack : ScopeStack}

theorem Passes.trans (h : Passes style place m fs w v) (h' : Passes style place n gs v u) :
    Passes style place (m + n) (fs ++ gs) w u := by
  constructor
  · exact h'.stack.trans h.stack
  · rw [h'.line, h.line, Nat.add_assoc]
  · rw [h'.found, h.found, List.filterMap_append, List.reverse_append, List.append_assoc]

theorem passes_filler (style : OutlineStyle τ φ) (place : OutlinePlace) (w : OutlineWalk φ) :
    Passes style place 1 [] w (w.visit style (.filler place.level)) :=
  ⟨w.stack.enterLine_enterLine (Nat.le_refl _), rfl, rfl⟩

/-- Behind the head of an item the stack has one frame more, unless the head is not read. -/
theorem stack_read (style : OutlineStyle τ φ) (w : OutlineWalk φ) (stack : ScopeStack) (depth : Nat)
    (item : OutlineItem τ φ) :
    (w.read style stack depth item).stack = stack ∨
      ∃ kind name, (w.read style stack depth item).stack = stack.push kind name depth := by
  cases item with
  | type head =>
    rw [read]
    cases style.typeName? head with
    | some name => exact .inr ⟨_, _, rfl⟩
    | none => exact .inl rfl
  | function head =>
    rw [read]
    cases style.functionName? head with
    | some name => exact .inr ⟨_, _, rfl⟩
    | none => exact .inl rfl

theorem isAt_read (style : OutlineStyle τ φ) (h : stack.IsAt place) (w : OutlineWalk φ)
    (depth : Nat) (item : OutlineItem τ φ) :
    (w.read style stack depth item).stack.IsAt (place.inside style item) := by
  cases item with
  | type head =>
    rw [read, OutlinePlace.inside]
    cases style.typeName? head with
    | some name => exact ⟨rfl, rfl⟩
    | none => exact ⟨h.owner, h.scope⟩
  | function head =>
    rw [read, OutlinePlace.inside]
    cases style.functionName? head with
    | some name => exact ⟨h.owner, rfl⟩
    | none => exact ⟨h.owner, h.scope⟩

theorem found_read (h : stack.IsAt place) (w : OutlineWalk φ) (depth : Nat) (item : OutlineItem τ φ)
    (body : Outline τ φ) :
    (w.read style stack depth item).found =
      ((Outline.ofItem place w.line body item).filterMap (OutlineFunction.found? style)).reverse ++
        w.found := by
  cases item with
  | type head =>
    rw [read]
    cases style.typeName? head <;> rfl
  | function head =>
    rw [read, Outline.ofItem, List.filterMap_cons, OutlineFunction.found?]
    cases style.functionName? head with
    | some name =>
      dsimp only
      rw [h.qualify]
      rfl
    | none => rfl

theorem line_read (style : OutlineStyle τ φ) (w : OutlineWalk φ) (stack : ScopeStack) (depth : Nat)
    (item : OutlineItem τ φ) : (w.read style stack depth item).line = w.line + 1 := by
  cases item with
  | type head => rw [read]; cases style.typeName? head <;> rfl
  | function head => rw [read]; cases style.functionName? head <;> rfl

theorem line_visit (style : OutlineStyle τ φ) (w : OutlineWalk φ) (l : OutlineLine τ φ) :
    (w.visit style l).line = w.line + 1 := by
  cases l with
  | head level item => exact line_read ..
  | filler level => rfl

/-- What passes inside an item passes around it, with the item in front. -/
theorem Passes.item (item : OutlineItem τ φ) (body : Outline τ φ)
    (h : (w.stack.enterLine (style.unit * place.level)).IsAt place)
    (hbody : Passes style (place.inside style item) n fs
      (w.visit style (.head place.level item)) v) :
    Passes style place (1 + n) (Outline.ofItem place w.line body item ++ fs) w v := by
  have hdeeper : style.unit * place.level ≤ style.unit * (place.inside style item).level := by
    rw [Outline.level_inside]
    exact Nat.mul_le_mul_left _ (Nat.le_succ _)
  have hread : (w.visit style (.head place.level item)).stack.enterLine (style.unit * place.level) =
      w.stack.enterLine (style.unit * place.level) := by
    rw [visit]
    rcases stack_read style w (w.stack.enterLine (style.unit * place.level))
      (style.unit * place.level) item with hkeep | ⟨kind, name, hpush⟩
    · rw [hkeep, ScopeStack.enterLine_enterLine _ (Nat.le_refl _)]
    · rw [hpush, ScopeStack.enterLine_push_of_le _ _ _ (Nat.le_refl _),
        ScopeStack.enterLine_enterLine _ (Nat.le_refl _)]
  constructor
  · rw [← v.stack.enterLine_enterLine hdeeper, hbody.stack,
      ScopeStack.enterLine_enterLine _ hdeeper, hread]
  · rw [hbody.line, visit, line_read, Nat.add_assoc]
  · rw [hbody.found, visit, found_read h w _ item body, List.filterMap_append, List.reverse_append,
      List.append_assoc]

/-- Entering a line of the body of an item closes nothing. -/
theorem isAt_inside (h : (w.stack.enterLine (style.unit * place.level)).IsAt place)
    (item : OutlineItem τ φ) :
    ((w.visit style (.head place.level item)).stack.enterLine
      (style.unit * (place.inside style item).level)).IsAt (place.inside style item) := by
  have hat := isAt_read style h w (style.unit * place.level) item
  have hdeeper : style.unit * place.level < style.unit * (place.inside style item).level := by
    rw [Outline.level_inside]
    exact Nat.mul_lt_mul_of_pos_left (Nat.lt_succ_self _) style.unit_pos
  rw [visit]
  rcases stack_read style w (w.stack.enterLine (style.unit * place.level))
    (style.unit * place.level) item with hkeep | ⟨kind, name, hpush⟩
  · rw [hkeep] at hat ⊢
    rwa [ScopeStack.enterLine_enterLine_of_le _ (Nat.le_of_lt hdeeper)]
  · rw [hpush] at hat ⊢
    rwa [ScopeStack.enterLine_push_of_lt _ _ _ hdeeper]

end OutlineWalk

/-- Along the lines of an outline every function that is read is found where the outline places
it. -/
theorem Outline.passes_lines {style : OutlineStyle τ φ} {place : OutlinePlace} {w : OutlineWalk φ}
    (o : Outline τ φ) (h : (w.stack.enterLine (style.unit * place.level)).IsAt place) :
    OutlineWalk.Passes style place (o.lines style place.level).length
      (o.functions style place w.line) w
      ((o.lines style place.level).foldl (OutlineWalk.visit style) w) := by
  induction o generalizing place w with
  | nil => exact ⟨rfl, rfl, rfl⟩
  | item head body next ihBody ihNext =>
    have hbody := ihBody (OutlineWalk.isAt_inside h head)
    have hblock : OutlineWalk.Passes style (place.inside style head)
        (body.block style place.level).length
        (body.functions style (place.inside style head) (w.line + 1))
        (w.visit style (.head place.level head))
        ((body.block style place.level).foldl (OutlineWalk.visit style)
          (w.visit style (.head place.level head))) := by
      rw [OutlineWalk.visit, OutlineWalk.line_read] at hbody
      rw [level_inside] at hbody
      rw [block]
      split
      · have hfiller := hbody.trans (OutlineWalk.passes_filler style (place.inside style head) _)
        rw [level_inside, List.append_nil] at hfiller
        rw [List.length_append, List.foldl_append]
        exact hfiller
      · rw [List.append_nil]
        exact hbody
    have hitem := hblock.item head body h
    have hnext := ihNext (by rw [hitem.stack]; exact h)
    rw [hitem.line] at hnext
    have hall := hitem.trans hnext
    rw [lines_item, List.foldl_cons, List.foldl_append, functions, List.length_cons,
      List.length_append, Nat.add_comm _ 1, ← Nat.add_assoc]
    exact hall

theorem Outline.found_lines (style : OutlineStyle τ φ) (o : Outline τ φ) :
    ((o.lines style 0).foldl (OutlineWalk.visit style) .start).found =
      ((o.functions style .top 0).filterMap (OutlineFunction.found? style)).reverse := by
  have hat : ((OutlineWalk.start : OutlineWalk φ).stack.enterLine
      (style.unit * OutlinePlace.top.level)).IsAt .top :=
    ScopeStack.isAt_top
  have hfound := (o.passes_lines hat).found
  rwa [OutlineWalk.start, List.append_nil] at hfound

end CodeSurvey
