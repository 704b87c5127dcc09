import CodeSurvey.Table

/-!
# JSON documents

A document as it is written: members in their order, repeated names included. A plain value is a
document in which every name occurs once, in ascending order.
-/
namespace CodeSurvey

inductive Json where
  | null
  | bool (b : Bool)
  /-- A number written without fraction and exponent that fits 64 bits. -/
  | int (n : Int)
  /-- Any other number. -/
  | real (x : Float)
  | str (s : String)
  | arr (items : List Json)
  | obj (members : List (String × Json))
  /-- A number beyond the range of doubles, a text with an unpaired surrogate, or an object with
  such a name. It may stand where nothing reads it. -/
  | unreadable
  deriving Inhabited

namespace Json

def ofNat (n : Nat) : Json :=
  .int n

def ofOption {α : Type} (f : α → Json) : Option α → Json
  | some a => f a
  | none => .null

def strings (xs : List String) : Json :=
  .arr (xs.map .str)

/-- A member that is left out when there is no value. -/
def member? {α : Type} (name : String) (f : α → Json) : Option α → List (String × Json)
  | some a => [(name, f a)]
  | none => []

/-- A table as an object. -/
def ofTable {α : Type} (f : α → Json) (t : Table α) : Json :=
  .obj (t.map fun (k, v) => (k, f v))

/-- The value of a member; of a repeated one, the last. -/
def get? (name : String) : Json → Option Json
  | .obj members => members.reverse.lookup name
  | _ => none

def str? : Json → Option String
  | .str s => some s
  | _ => none

def bool? : Json → Option Bool
  | .bool b => some b
  | _ => none

/-- A natural number below `bound`. -/
def natBelow? (bound : Nat) : Json → Option Nat
  | .int (.ofNat n) => if n < bound then some n else none
  | _ => none

/-- A natural number that fits 64 bits. -/
def nat? : Json → Option Nat :=
  natBelow? UInt64.size

def list? {α : Type} (read : Json → Option α) : Json → Option (List α)
  | .arr items => items.mapM read
  | _ => none

/-- A value that may be `null`. -/
def nullable? {α : Type} (read : Json → Option α) : Json → Option (Option α)
  | .null => some none
  | j => (read j).map some

/-- The greatest number of arrays and objects that may enclose each other in a plain value. -/
def maxDepth : Nat := 127

/-- The plain value of a document with at most `depth` levels; of a repeated name the last member
counts. -/
def plainWithin? : Nat → Json → Option Json
  | 0, .arr _ => none
  | 0, .obj _ => none
  | n + 1, .arr items => (items.mapM (plainWithin? n)).map .arr
  | n + 1, .obj members =>
    (members.mapM fun (m : String × Json) => (plainWithin? n m.2).map (Prod.mk m.1)).map fun ms =>
      .obj (Table.ofList ms)
  | _, .unreadable => none
  | _, j => some j

def plain? (j : Json) : Option Json :=
  j.plainWithin? maxDepth

end Json

end CodeSurvey
