import CodeSurvey.Text.Blank

/-!
# Scopes

The types and functions that are open at a line, with the depth at which each was declared, and the
name and kind of scope that they give to a declaration on that line.
-/
namespace CodeSurvey

inductive ScopeKind where
  | module
  | type
  | nested
  deriving DecidableEq, Repr, Inhabited

namespace ScopeKind

def label : ScopeKind → String
  | .module => "module"
  | .type => "class"
  | .nested => "nested"

def ofLabel? (s : String) : Option ScopeKind :=
  [.module, .type, .nested].find? (·.label == s)

/-- Also accepts the labels of older stores. -/
def ofAnyLabel? (s : String) : Option ScopeKind :=
  if s = "function" then some .module
  else if s = "method" || s = "type" then some .type
  else ofLabel? s

end ScopeKind

/-- Width of the white space in front of a line; a tab counts four columns. -/
def indentWidth (line : List Char) : Nat :=
  (line.takeWhile Text.isBlank).foldr (fun c n => (if c == '\t' then 4 else 1) + n) 0

/-- The number of open braces after `line`, if `depth` were open before it. -/
def braceDepthAfter (depth : Nat) (line : List Char) : Nat :=
  line.foldl
    (fun d c => if c == '\x7b' then d + 1 else if c == '\x7d' then d - 1 else d) depth

def braceDepthsFrom (depth : Nat) : List (List Char) → List Nat
  | [] => []
  | line :: rest => depth :: braceDepthsFrom (braceDepthAfter depth line) rest

/-- The number of open braces at the start of each line of a masked text. -/
def braceDepths (masked : List Char) : List Nat :=
  braceDepthsFrom 0 (Text.pieces masked)

inductive FrameKind where
  | type
  | function
  deriving DecidableEq, Repr

structure Frame where
  kind : FrameKind
  name : String
  depth : Nat
  deriving DecidableEq, Repr

/-- The open scopes, the innermost one first. -/
structure ScopeStack where
  frames : List Frame
  deriving DecidableEq, Repr

namespace ScopeStack

def empty : ScopeStack :=
  ⟨[]⟩

/-- Closes every scope that cannot enclose a line at `depth`. -/
def enterLine (depth : Nat) (s : ScopeStack) : ScopeStack :=
  ⟨s.frames.dropWhile fun f => depth ≤ f.depth⟩

def push (kind : FrameKind) (name : String) (depth : Nat) (s : ScopeStack) : ScopeStack :=
  ⟨⟨kind, name, depth⟩ :: s.frames⟩

def pushType (name : String) (depth : Nat) (s : ScopeStack) : ScopeStack :=
  s.push .type name depth

def pushFunction (name : String) (depth : Nat) (s : ScopeStack) : ScopeStack :=
  s.push .function name depth

/-- The kind of the innermost open scope. -/
def scope (s : ScopeStack) : ScopeKind :=
  match s.frames.head? with
  | none => .module
  | some ⟨.type, _, _⟩ => .type
  | some ⟨.function, _, _⟩ => .nested

/-- The name of the innermost open type. -/
def owner? (s : ScopeStack) : Option String :=
  (s.frames.find? (·.kind == .type)).map Frame.name

/-- The name of a declaration, with the innermost open type in front, and its scope. -/
def qualify (s : ScopeStack) (name : String) : String × ScopeKind :=
  match s.owner? with
  | some owner => (owner ++ "." ++ name, s.scope)
  | none => (name, s.scope)

end ScopeStack

end CodeSurvey
