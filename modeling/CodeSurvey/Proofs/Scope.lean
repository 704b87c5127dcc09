import CodeSurvey.Declaration
import Mathlib.Data.List.Basic

/-!
# Open types

A type is open after some lines if every line after that of its head is deeper than the head. The
walks over the lines of a text keep the open types on a stack, among the open functions, and name
what they declare after the innermost one. `Trace` says what such a walk can do; the rest is read
off from it.
-/
namespace CodeSurvey

/-- A line as scopes see it: its number, its depth and the types whose heads stand on it, in
order. -/
structure ScopeLine where
  number : Nat
  depth : Nat
  types : List String

namespace ScopeLine

/-- The types that are open after the lines with their depths, the outermost one first. -/
def openTypes : List ScopeLine → List (String × Nat)
  | [] => []
  | line :: rest =>
    (if ∀ later ∈ rest, line.depth < later.depth then line.types.map (·, line.depth) else []) ++
      openTypes rest

/-- The innermost open type. -/
def innermost? (lines : List ScopeLine) : Option String :=
  (openTypes lines).getLast?.map Prod.fst

/-- A line closes the types that it is not deeper than, and opens its own. -/
theorem openTypes_concat (lines : List ScopeLine) (l : ScopeLine) :
    openTypes (lines ++ [l]) =
      ((openTypes lines).filter fun t => t.2 < l.depth) ++ l.types.map (·, l.depth) := by
  induction lines with
  | nil => simp [openTypes]
  | cons line rest ih =>
    have hown : (line.types.map (·, line.depth)).filter (fun t => t.2 < l.depth) =
        if line.depth < l.depth then line.types.map (·, line.depth) else [] := by
      by_cases hdepth : line.depth < l.depth
      · simp [hdepth]
      · rw [if_neg hdepth, List.filter_eq_nil_iff]
        simpa using fun _ _ => Nat.not_lt.1 hdepth
    rw [List.cons_append, openTypes, ih, openTypes, List.filter_append, ← List.append_assoc]
    congr 2
    by_cases hrest : ∀ later ∈ rest, line.depth < later.depth
    · rw [if_pos hrest, hown]
      by_cases hdepth : line.depth < l.depth
      · rw [if_pos hdepth, if_pos]
        intro later hlater
        rcases List.mem_append.1 hlater with hlater | hlater
        · exact hrest later hlater
        · rwa [List.mem_singleton.1 hlater]
      · rw [if_neg hdepth, if_neg fun h => hdepth (h l (by simp))]
    · rw [if_neg hrest, if_neg fun h => hrest fun later hlater => h later (by simp [hlater])]
      rfl

end ScopeLine

namespace ScopeStack

/-- The stack holds the types that are open after the lines, and no scope deeper than `depth`. -/
structure Follows (s : ScopeStack) (lines : List ScopeLine) (depth : Nat) : Prop where
  ordered : s.frames.Pairwise fun f g => g.depth ≤ f.depth
  bounded : ∀ f ∈ s.frames, f.depth ≤ depth
  types : (s.frames.filter (·.kind == .type)).map (fun f => (f.name, f.depth)) =
    (ScopeLine.openTypes lines).reverse

/-- Where inner scopes are not shallower than outer ones, a line closes all that it is not deeper
than. -/
theorem enterLine_eq_filter {s : ScopeStack} (h : s.frames.Pairwise fun f g => g.depth ≤ f.depth)
    (depth : Nat) :
    s.enterLine depth = ⟨s.frames.filter fun f => f.depth < depth⟩ := by
  obtain ⟨frames⟩ := s
  rw [enterLine]
  congr 1
  induction frames with
  | nil => rfl
  | cons f frames ih =>
    rw [List.pairwise_cons] at h
    by_cases hf : depth ≤ f.depth
    · rw [List.dropWhile_cons_of_pos (by simpa using hf),
        List.filter_cons_of_neg (by simpa using hf)]
      exact ih h.2
    · rw [List.dropWhile_cons_of_neg (by simpa using hf),
        List.filter_cons_of_pos (by simpa using hf), List.filter_eq_self.2]
      intro g hg
      have hle := h.1 g hg
      simp only [decide_eq_true_eq]
      omega

variable {s : ScopeStack} {lines : List ScopeLine} {depth : Nat}

theorem follows_empty : empty.Follows [] 0 :=
  ⟨.nil, by simp [empty], rfl⟩

namespace Follows

theorem owner? (h : s.Follows lines depth) : s.owner? = ScopeLine.innermost? lines := by
  have hhead := congrArg List.head? h.types
  rw [List.head?_map, List.head?_filter, List.head?_reverse] at hhead
  rw [ScopeStack.owner?, ScopeLine.innermost?, ← hhead, Option.map_map]
  rfl

theorem enterLine (h : s.Follows lines depth) (number next : Nat) :
    (s.enterLine next).Follows (lines ++ [⟨number, next, []⟩]) next := by
  rw [enterLine_eq_filter h.ordered]
  refine ⟨h.ordered.filter _, ?_, ?_⟩
  · intro f hf
    have hlt := (List.mem_filter.1 hf).2
    simp only [decide_eq_true_eq] at hlt
    omega
  · have hswap : (s.frames.filter fun f => f.depth < next).filter (·.kind == .type) =
        (s.frames.filter (·.kind == .type)).filter
          ((fun t : String × Nat => t.2 < next) ∘ fun f => (f.name, f.depth)) := by
      rw [List.filter_filter, List.filter_filter]
      exact List.filter_congr fun f _ => Bool.and_comm _ _
    rw [ScopeLine.openTypes_concat, List.map_nil, List.append_nil, ← List.filter_reverse, ← h.types,
      hswap, ← List.filter_map]

theorem push (h : s.Follows lines depth) (kind : FrameKind) (name : String) :
    (s.push kind name depth).frames.Pairwise (fun f g => g.depth ≤ f.depth) ∧
      ∀ f ∈ (s.push kind name depth).frames, f.depth ≤ depth := by
  refine ⟨.cons h.bounded h.ordered, ?_⟩
  rintro f (_ | ⟨_, hf⟩)
  · exact Nat.le_refl depth
  · exact h.bounded f hf

theorem pushFunction (h : s.Follows lines depth) (name : String) :
    (s.pushFunction name depth).Follows lines depth :=
  ⟨(h.push _ _).1, (h.push _ _).2, h.types⟩

theorem pushType {number : Nat} {types : List String}
    (h : s.Follows (lines ++ [⟨number, depth, types⟩]) depth) (name : String) :
      (s.pushType name depth).Follows (lines ++ [⟨number, depth, types ++ [name]⟩]) depth := by
  refine ⟨(h.push _ _).1, (h.push _ _).2, ?_⟩
  have htypes := h.types
  rw [ScopeLine.openTypes_concat] at htypes ⊢
  have hpush : (s.pushType name depth).frames = ⟨.type, name, depth⟩ :: s.frames := rfl
  rw [hpush, List.filter_cons_of_pos rfl, List.map_cons, htypes]
  simp

end Follows

/-- Enters a line and opens its types. -/
def openLine (s : ScopeStack) (l : ScopeLine) : ScopeStack :=
  l.types.foldl (fun s name => s.pushType name l.depth) (s.enterLine l.depth)

theorem Follows.openLine (h : s.Follows lines depth) (l : ScopeLine) :
    (s.openLine l).Follows (lines ++ [l]) l.depth := by
  have htypes : ∀ (done : List String) (s : ScopeStack) (todo : List String),
      s.Follows (lines ++ [⟨l.number, l.depth, done⟩]) l.depth →
        (todo.foldl (fun s name => s.pushType name l.depth) s).Follows
          (lines ++ [⟨l.number, l.depth, done ++ todo⟩]) l.depth := by
    intro done s todo
    induction todo generalizing done s with
    | nil =>
      intro hs
      rwa [List.append_nil]
    | cons name todo ih =>
      intro hs
      have hnext := ih (done ++ [name]) (s.pushType name l.depth) (hs.pushType name)
      rwa [List.append_assoc] at hnext
  exact htypes [] _ l.types (h.enterLine l.number l.depth)

end ScopeStack

/-- The functions that are declared on a line, one after the other, each inside the scopes that are
open then. The names are those whose heads stand on the line. -/
inductive DeclaresOn (l : ScopeLine) (heads : List String) :
    ScopeStack → List Declaration → ScopeStack → List Declaration → Prop
  | none (stack : ScopeStack) (found : List Declaration) :
    DeclaresOn l heads stack found stack found
  | next {stack after : ScopeStack} {found more : List Declaration} {d : Declaration}
      {name : String}
      (hname : name ∈ heads) (hline : d.line = l.number + 1)
      (hqualified : d.name = (stack.qualify name).1)
      (h : DeclaresOn l heads (stack.pushFunction name l.depth) (d :: found) after more) :
      DeclaresOn l heads stack found after more

/-- What a walk over lines has on its stack and has found, the last declaration first. -/
inductive Trace (heads : Nat → List String) : List ScopeLine → ScopeStack → List Declaration → Prop
  | start : Trace heads [] .empty []
  | line {lines : List ScopeLine} {stack after : ScopeStack} {found more : List Declaration}
      {l : ScopeLine}
      (h : Trace heads lines stack found) (hnumber : ∀ k ∈ lines, k.number < l.number)
      (hdeclares : DeclaresOn l (heads l.number) (stack.openLine l) found after more) :
      Trace heads (lines ++ [l]) after more

/-- The declaration stands on one of the lines, and is named after the innermost type that is open
there. -/
structure Declaration.Placed (heads : Nat → List String) (lines : List ScopeLine)
    (d : Declaration) : Prop where
  line : ∃ l ∈ lines, d.line = l.number + 1
  name : ∃ name ∈ heads (d.line - 1),
    d.name = match ScopeLine.innermost? (lines.filter (·.number < d.line)) with
      | some owner => owner ++ "." ++ name
      | none => name

section Trace

variable {heads : Nat → List String} {lines : List ScopeLine} {stack after : ScopeStack}
  {found more : List Declaration} {l : ScopeLine}

theorem DeclaresOn.follows (h : DeclaresOn l (heads l.number) stack found after more)
    (hs : stack.Follows lines l.depth) : after.Follows lines l.depth := by
  induction h with
  | none => exact hs
  | next _ _ _ _ ih => exact ih (hs.pushFunction _)

theorem Trace.follows (h : Trace heads lines stack found) : ∃ depth, stack.Follows lines depth := by
  induction h with
  | start => exact ⟨0, ScopeStack.follows_empty⟩
  | line _ _ hdeclares ih =>
    obtain ⟨depth, hs⟩ := ih
    exact ⟨_, hdeclares.follows (hs.openLine _)⟩

/-- What is declared on the last of the lines stands there, after all that was found before. -/
theorem DeclaresOn.placed (h : DeclaresOn l (heads l.number) stack found after more)
    (hnumber : ∀ k ∈ lines, k.number < l.number) (hs : stack.Follows (lines ++ [l]) l.depth)
    (hfound : ∀ d ∈ found, d.Placed heads (lines ++ [l]))
    (hordered : found.Pairwise fun d e => e.line ≤ d.line) :
    (∀ d ∈ more, d.Placed heads (lines ++ [l])) ∧ more.Pairwise fun d e => e.line ≤ d.line := by
  induction h with
  | none => exact ⟨hfound, hordered⟩
  | @next stack after found more d name hname hline hqualified h ih =>
    have hupTo : (lines ++ [l]).filter (·.number < d.line) = lines ++ [l] := by
      rw [List.filter_eq_self, hline]
      intro k hk
      rcases List.mem_append.1 hk with hk | hk
      · have hlt := hnumber k hk
        simp only [decide_eq_true_eq]
        omega
      · simp [List.mem_singleton.1 hk]
    apply ih (hs.pushFunction name)
    · rintro e (_ | ⟨_, he⟩)
      · refine ⟨⟨l, by simp, hline⟩, name, by rwa [hline, Nat.add_sub_cancel], ?_⟩
        rw [hqualified, hupTo, ← hs.owner?, ScopeStack.qualify]
        cases stack.owner? <;> rfl
      · exact hfound e he
    · refine .cons (fun e he => ?_) hordered
      obtain ⟨k, hk, heline⟩ := (hfound e he).line
      rw [hline, heline]
      rcases List.mem_append.1 hk with hk | hk
      · have hlt := hnumber k hk
        omega
      · obtain rfl := List.mem_singleton.1 hk
        exact Nat.le_refl _

theorem Declaration.Placed.append {d : Declaration} (h : d.Placed heads lines)
    (hnumber : ∀ k ∈ lines, k.number < l.number) : d.Placed heads (lines ++ [l]) := by
  obtain ⟨⟨k, hk, hline⟩, hname⟩ := h
  have hlater : (lines ++ [l]).filter (·.number < d.line) = lines.filter (·.number < d.line) := by
    have hlt := hnumber k hk
    rw [List.filter_append, List.filter_cons_of_neg (by simp only [decide_eq_true_eq]; omega),
      List.filter_nil, List.append_nil]
  exact ⟨⟨k, by simp [hk], hline⟩, by rwa [hlater]⟩

theorem Trace.placed (h : Trace heads lines stack found) :
    (∀ d ∈ found, d.Placed heads lines) ∧ found.Pairwise fun d e => e.line ≤ d.line := by
  induction h with
  | start => exact ⟨by simp, .nil⟩
  | line h hnumber hdeclares ih =>
    obtain ⟨depth, hs⟩ := h.follows
    exact hdeclares.placed hnumber (hs.openLine _) (fun d hd => (ih.1 d hd).append hnumber) ih.2

end Trace

end CodeSurvey
