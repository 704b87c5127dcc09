import CodeSurvey.Proofs.Scope
import Mathlib.Data.List.Induction

/-!
# Runs of a scope stack

A line closes scopes from the top of the stack on, as long as the top is not shallower than the
line. If every scope is opened at the depth of the line that was entered last, the stack is ordered
by depth, and what is left after a line is what the line is deeper than. The innermost scope of a
kind is then the one of that kind that was opened last among those that only deeper lines have
followed. All walks over texts are runs of this sort.
-/
namespace CodeSurvey

/-- The scope of what is declared directly inside. -/
def FrameKind.inside : FrameKind → ScopeKind
  | .type => .type
  | .function => .nested

namespace ScopeStack

/-- What is done to a stack: a line is entered, or a scope is opened. -/
inductive Operation where
  | enter (depth : Nat)
  | declare (frame : Frame)
  deriving DecidableEq, Repr

namespace Operation

def apply (s : ScopeStack) : Operation → ScopeStack
  | enter depth => s.enterLine depth
  | declare f => s.push f.kind f.name f.depth

def entered? : Operation → Option Nat
  | enter depth => some depth
  | declare _ => none

def pushed? : Operation → Option Frame
  | enter _ => none
  | declare f => some f

theorem mem_pushed? {op : Operation} {f : Frame} : f ∈ op.pushed? ↔ op = declare f := by
  cases op <;> simp [pushed?]

end Operation

/-- The stack after some operations. -/
def run (ops : List Operation) : ScopeStack :=
  ops.foldl Operation.apply empty

/-- The depth of the line that was entered last. -/
def lineDepth? (ops : List Operation) : Option Nat :=
  (ops.filterMap Operation.entered?).getLast?

/-- Every frame is pushed with the depth of the line that was entered last. -/
def Disciplined (ops : List Operation) : Prop :=
  ∀ i f, ops[i]? = some (.declare f) → lineDepth? (ops.take i) = some f.depth

instance (ops : List Operation) : Decidable (Disciplined ops) :=
  decidable_of_iff (∀ i < ops.length, ∀ f ∈ ops[i]?.bind Operation.pushed?, lineDepth?
    (ops.take i) = some f.depth) <| by
    constructor
    · intro h i f hi
      refine h i (List.getElem?_eq_some_iff.1 hi).1 f ?_
      rw [hi, Option.bind_some, Operation.mem_pushed?]
    · intro h i _ f hf
      obtain ⟨op, hi, hop⟩ := Option.bind_eq_some_iff.1 hf
      exact h i f (by rw [hi, Operation.mem_pushed?.1 hop])

/-- Only deeper lines follow the frame. -/
def staysOpen (f : Frame) (later : List Operation) : Bool :=
  (later.filterMap Operation.entered?).all fun depth => f.depth < depth

/-- The last push of a frame with a property that only deeper lines follow. -/
def latestOpen? (p : Frame → Bool) : List Operation → Option Frame
  | [] => none
  | op :: later => (latestOpen? p later).or (op.pushed?.filter fun f => p f && staysOpen f later)

variable {ops : List Operation} {s : ScopeStack} {depth : Nat}

/-! ### One more operation -/

theorem run_concat (ops : List Operation) (op : Operation) :
    run (ops ++ [op]) = op.apply (run ops) := by
  rw [run, List.foldl_append]
  rfl

theorem lineDepth?_enter (ops : List Operation) (depth : Nat) :
    lineDepth? (ops ++ [.enter depth]) = some depth := by
  simp [lineDepth?, Operation.entered?]

theorem lineDepth?_declare (ops : List Operation) (f : Frame) :
    lineDepth? (ops ++ [.declare f]) = lineDepth? ops := by
  simp [lineDepth?, Operation.entered?]

theorem disciplined_nil : Disciplined [] := by
  intro i f h
  simp at h

theorem disciplined_concat {op : Operation} :
    Disciplined (ops ++ [op]) ↔ Disciplined ops ∧ ∀ f, op = .declare f →
    lineDepth? ops = some f.depth := by
  constructor
  · intro h
    constructor
    · intro i f hi
      have hlt : i < ops.length := (List.getElem?_eq_some_iff.1 hi).1
      have hdepth := h i f (by rw [List.getElem?_append_left hlt, hi])
      rwa [List.take_append_of_le_length (Nat.le_of_lt hlt)] at hdepth
    · rintro f rfl
      simpa using h ops.length f
  · rintro ⟨hops, hop⟩ i f hi
    have hle : i ≤ ops.length := by
      have hlt := (List.getElem?_eq_some_iff.1 hi).1
      rw [List.length_append, List.length_singleton] at hlt
      omega
    rw [List.take_append_of_le_length hle]
    rcases Nat.lt_or_eq_of_le hle with hlt | rfl
    · rw [List.getElem?_append_left hlt] at hi
      exact hops i f hi
    · rw [List.getElem?_concat_length, Option.some_inj] at hi
      rw [List.take_length]
      exact hop f hi

theorem staysOpen_concat (f : Frame) (later : List Operation) (op : Operation) :
    staysOpen f (later ++ [op]) =
      (staysOpen f later && op.entered?.all fun depth => f.depth < depth) := by
  cases op <;> simp [staysOpen, Operation.entered?]

/-- A line leaves open what it is deeper than. -/
theorem latestOpen?_enter (p : Frame → Bool) (ops : List Operation) (depth : Nat) :
    latestOpen? p (ops ++ [.enter depth]) = latestOpen? (fun f => p f && f.depth < depth) ops := by
  induction ops with
  | nil => rfl
  | cons op ops ih =>
    have hopen : ∀ f : Frame, (p f && staysOpen f (ops ++ [.enter depth])) =
        ((p f && decide (f.depth < depth)) && staysOpen f ops) := by
      intro f
      rw [staysOpen_concat, Operation.entered?, Option.all_some, Bool.and_assoc,
        Bool.and_comm (staysOpen f ops)]
    rw [List.cons_append, latestOpen?, latestOpen?, ih, funext hopen]

theorem latestOpen?_declare (p : Frame → Bool) (ops : List Operation) (f : Frame) :
    latestOpen? p (ops ++ [.declare f]) = if p f then some f else latestOpen? p ops := by
  induction ops with
  | nil => simp [latestOpen?, Operation.pushed?, staysOpen, Option.filter]
  | cons op ops ih =>
    have hopen : ∀ f' : Frame, (p f' && staysOpen f' (ops ++ [.declare f])) =
        (p f' && staysOpen f' ops) := by
      intro f'
      rw [staysOpen_concat, Operation.entered?, Option.all_none, Bool.and_true]
    rw [List.cons_append, latestOpen?, latestOpen?, ih, funext hopen]
    split <;> rfl

/-! ### What a run keeps -/

/-- The stack is ordered by depth, none of its frames is deeper than the current line, and the first
of them with a property is the last push with it that is open. -/
structure Mirrors (s : ScopeStack) (ops : List Operation) : Prop where
  ordered : s.frames.Pairwise fun f g => g.depth ≤ f.depth
  bounded : ∀ f ∈ s.frames, ∀ depth, lineDepth? ops = some depth → f.depth ≤ depth
  find? : ∀ p : Frame → Bool, s.frames.find? p = latestOpen? p ops

theorem mirrors_empty : empty.Mirrors [] :=
  ⟨.nil, by simp [empty], fun _ => rfl⟩

theorem Mirrors.enterLine (h : s.Mirrors ops) (depth : Nat) :
    (s.enterLine depth).Mirrors (ops ++ [.enter depth]) := by
  rw [enterLine_eq_filter h.ordered]
  refine ⟨h.ordered.filter _, ?_, ?_⟩
  · intro f hf current hcurrent
    rw [lineDepth?_enter, Option.some_inj] at hcurrent
    have hlt : f.depth < depth := by simpa using (List.mem_filter.1 hf).2
    omega
  · intro p
    rw [latestOpen?_enter, ← h.find?, List.find?_filter]
    congr 1
    funext f
    rw [Bool.decide_and, Bool.decide_eq_true, Bool.decide_eq_true, Bool.and_comm]

theorem Mirrors.push (h : s.Mirrors ops) {f : Frame} (hdepth : lineDepth? ops = some f.depth) :
    (s.push f.kind f.name f.depth).Mirrors (ops ++ [.declare f]) := by
  refine ⟨.cons (fun g hg => h.bounded g hg f.depth hdepth) h.ordered, ?_, ?_⟩
  · intro g hg current hcurrent
    rw [lineDepth?_declare] at hcurrent
    rcases List.mem_cons.1 hg with rfl | hg
    · rw [hdepth, Option.some_inj] at hcurrent
      exact Nat.le_of_eq hcurrent
    · exact h.bounded g hg current hcurrent
  · intro p
    rw [latestOpen?_declare, ← h.find?]
    show (f :: s.frames).find? p = _
    rw [List.find?_cons]
    cases p f <;> rfl

theorem mirrors_run (h : Disciplined ops) : (run ops).Mirrors ops := by
  induction ops using List.reverseRecOn with
  | nil => exact mirrors_empty
  | append_singleton ops op ih =>
    obtain ⟨hops, hop⟩ := disciplined_concat.1 h
    rw [run_concat]
    cases op with
    | enter depth => exact (ih hops).enterLine depth
    | declare f => exact (ih hops).push (hop f rfl)

theorem Mirrors.qualify (h : s.Mirrors ops) (name : String) :
    s.qualify name =
      ((latestOpen? (·.kind == .type) ops).elim name fun t => t.name ++ "." ++ name,
        (latestOpen? (fun _ => true) ops).elim .module fun f => f.kind.inside) := by
  have hscope : s.scope = (latestOpen? (fun _ => true) ops).elim .module fun f =>
      f.kind.inside := by
    rw [← h.find?, scope]
    cases s.frames with
    | nil => rfl
    | cons f frames =>
      obtain ⟨kind, owner, depth⟩ := f
      cases kind <;> rfl
  rw [ScopeStack.qualify, hscope, owner?, h.find?]
  cases latestOpen? (·.kind == .type) ops <;> rfl

/-! ### Walks over texts -/

/-- A disciplined run on a line of the depth leads to the stack. -/
def Reached (s : ScopeStack) (depth : Nat) : Prop :=
  ∃ ops, Disciplined ops ∧ lineDepth? ops = some depth ∧ run ops = s

theorem Reached.push (h : s.Reached depth) (kind : FrameKind) (name : String) :
    (s.push kind name depth).Reached depth := by
  obtain ⟨ops, hops, hdepth, rfl⟩ := h
  refine ⟨ops ++ [.declare ⟨kind, name, depth⟩], disciplined_concat.2 ⟨hops, ?_⟩, ?_,
    run_concat _ _⟩
  · rintro f ⟨⟩
    exact hdepth
  · rw [lineDepth?_declare, hdepth]

theorem reached_enterLine (hops : Disciplined ops) (depth : Nat) :
    ((run ops).enterLine depth).Reached depth := by
  refine ⟨ops ++ [.enter depth], disciplined_concat.2 ⟨hops, ?_⟩, lineDepth?_enter _ _,
    run_concat _ _⟩
  rintro f ⟨⟩

theorem Reached.foldl_pushType (h : s.Reached depth) (types : List String) :
    (types.foldl (fun s name => s.pushType name depth) s).Reached depth := by
  induction types generalizing s with
  | nil => exact h
  | cons name types ih => exact ih (h.push .type name)

end ScopeStack

theorem DeclaresOn.reached {l : ScopeLine} {heads : List String} {stack after : ScopeStack}
    {found more : List Declaration} (h : DeclaresOn l heads stack found after more)
    (hs : stack.Reached l.depth) :
    after.Reached l.depth := by
  induction h with
  | none => exact hs
  | next _ _ _ _ ih => exact ih (hs.push .function _)

/-- A walk over lines opens its scopes at the depth of the line where it stands. -/
theorem Trace.exists_run {heads : Nat → List String} {lines : List ScopeLine} {stack : ScopeStack}
    {found : List Declaration} (h : Trace heads lines stack found) :
    ∃ ops, ScopeStack.Disciplined ops ∧ ScopeStack.run ops = stack := by
  induction h with
  | start => exact ⟨[], ScopeStack.disciplined_nil, rfl⟩
  | @line lines stack after found more l _ _ hdeclares ih =>
    obtain ⟨ops, hops, rfl⟩ := ih
    have hopened := (ScopeStack.reached_enterLine hops l.depth).foldl_pushType l.types
    obtain ⟨ops', hops', -, hrun⟩ := hdeclares.reached hopened
    exact ⟨ops', hops', hrun⟩

namespace ScopeStack

/-- If every scope is opened at the depth of the line entered last, inner scopes are not shallower
than outer ones, a name is qualified by the type opened last among those that only deeper lines have
followed, and its scope is that of the frame opened last among those. The walks over texts come to
no other stacks. -/
theorem qualify_run :
    (∀ ops, Disciplined ops →
        (run ops).frames.reverse.Pairwise (fun outer inner => outer.depth ≤ inner.depth) ∧
          ∀ name, (run ops).qualify name =
            ((latestOpen? (·.kind == .type) ops).elim name fun t => t.name ++ "." ++ name,
              (latestOpen? (fun _ => true) ops).elim .module fun f => f.kind.inside)) ∧
      ∀ heads lines stack found, Trace heads lines stack found →
      ∃ ops, Disciplined ops ∧ run ops = stack := by
  refine ⟨?_, fun heads lines stack found h => h.exists_run⟩
  intro ops hops
  have hmirrors := mirrors_run hops
  exact ⟨List.pairwise_reverse.2 hmirrors.ordered, hmirrors.qualify⟩

/-- A line between the depths of two types closes the inner one; the functions behind it are
declared in the outer. -/
theorem qualify_run_two_types :
    let ops : List Operation := [.enter 0, .declare ⟨.type, "A", 0⟩, .enter 4,
      .declare ⟨.type, "B", 4⟩, .enter 2, .declare ⟨.function, "f", 2⟩,
      .declare ⟨.function, "g", 2⟩]
    Disciplined ops ∧ (run ops).qualify "h" = ("A.h", .nested) := by
  intro ops
  have hops : Disciplined ops := by decide
  exact ⟨hops, (qualify_run.1 ops hops).2 "h"⟩

end ScopeStack

end CodeSurvey
