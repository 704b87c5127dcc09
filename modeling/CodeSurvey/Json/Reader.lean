import CodeSurvey.Json.Basic

/-!
# Reading JSON

The strict grammar: no comments, no trailing commas, nothing after the value. Numbers are read as
64-bit integers where they are written so and fit, and otherwise as doubles.
-/
namespace CodeSurvey.Json

def isJsonBlank (c : Char) : Bool :=
  c == ' ' || c == '\n' || c == '\t' || c == '\r'

def skipBlanks (cs : List Char) : List Char :=
  cs.dropWhile isJsonBlank

/-- The parts of a number as it is written. -/
structure Literal where
  negative : Bool
  whole : List Nat
  fraction : List Nat
  /-- The sign, true for plus, and the digits of the exponent. -/
  exponent : Option (Bool × List Nat)

namespace Literal

def maxSignificand : Nat := UInt64.size - 1

/-- Takes digits while they fit 64 bits; the second number counts those left out. -/
def wholePart (digits : List Nat) : Nat × Nat :=
  digits.foldl (fun (s, dropped) d =>
    if dropped = 0 && s * 10 + d ≤ maxSignificand then (s * 10 + d, 0) else (s, dropped + 1)) (0, 0)

/-- Appends digits while they fit 64 bits; the second number counts those appended. -/
def appendDigits (s : Nat) : List Nat → Nat × Nat
  | [] => (s, 0)
  | d :: ds =>
    if s * 10 + d ≤ maxSignificand then
      let (t, n) := appendDigits (s * 10 + d) ds
      (t, n + 1)
    else (s, 0)

/-- The greatest exponent that is taken at its word. -/
def maxExponent : Nat := UInt32.size / 2 - 1

def naturalOf (digits : List Nat) : Nat :=
  digits.foldl (fun n d => n * 10 + d) 0

/-- `f * 10 ^ e` in double arithmetic, in steps of at most 308 decimal places; none on overflow. -/
def scale? : Nat → Float → Int → Option Float
  | 0, f, _ => some f
  | n + 1, f, e =>
    if e.natAbs ≤ 308 then
      let power := Float.ofScientific 1 false e.natAbs
      if 0 ≤ e then
        let g := f * power
        if g.isInf then none else some g
      else some (f / power)
    else if f == 0.0 then some f
    else if 0 ≤ e then none
    else scale? n (f / 1e308) (e + 308)

/-- The magnitude as a double: the significand is scaled by the exponent. -/
def magnitude? (l : Literal) : Option Float :=
  let (s, dropped) := wholePart l.whole
  let (s, appended) := appendDigits s l.fraction
  let start : Int := (dropped : Int) - appended
  let significand := s.toUInt64.toFloat
  match l.exponent with
  | none => scale? 4 significand start
  | some (positive, digits) =>
    let e := naturalOf digits
    if maxExponent < e then
      if positive && s ≠ 0 then none else some 0.0
    else scale? 4 significand (if positive then start + e else start - e)

/-- A zero with a minus sign is a double, and so is every integer that does not fit. -/
def value (l : Literal) : Json :=
  let n := naturalOf l.whole
  let fits := if l.negative then 0 < n && n ≤ UInt64.size / 2 else n ≤ maxSignificand
  if l.fraction.isEmpty && l.exponent.isNone && fits then
    .int (if l.negative then -(n : Int) else n)
  else
    match l.magnitude? with
    | some x => .real (if l.negative then -x else x)
    | none => .unreadable

end Literal

def digitsOf (cs : List Char) : List Nat × List Char :=
  ((cs.takeWhile Char.isDigit).map fun c => c.toNat - '0'.toNat, cs.dropWhile Char.isDigit)

def readExponent? (cs : List Char) : Option (Option (Bool × List Nat) × List Char) :=
  match cs with
  | c :: rest =>
    if c == 'e' || c == 'E' then
      let (positive, rest) :=
        match rest with
        | '+' :: r => (true, r)
        | '-' :: r => (false, r)
        | r => (true, r)
      match digitsOf rest with
      | ([], _) => none
      | (ds, rest) => some (some (positive, ds), rest)
    else some (none, cs)
  | [] => some (none, [])

def readFraction? (cs : List Char) : Option (List Nat × List Char) :=
  match cs with
  | '.' :: rest =>
    match digitsOf rest with
    | ([], _) => none
    | parts => some parts
  | _ => some ([], cs)

/-- Reads a number, without leading zeros. -/
def readNumber? (cs : List Char) : Option (Json × List Char) := do
  let (negative, cs) :=
    match cs with
    | '-' :: rest => (true, rest)
    | _ => (false, cs)
  let (whole, cs) := digitsOf cs
  if whole.isEmpty || (whole.head? == some 0 && 1 < whole.length) then none
  let (fraction, cs) ← readFraction? cs
  let (exponent, cs) ← readExponent? cs
  return (Literal.value ⟨negative, whole, fraction, exponent⟩, cs)

def hexDigit? (c : Char) : Option Nat :=
  if c.isDigit then some (c.toNat - '0'.toNat)
  else if 'a' ≤ c && c ≤ 'f' then some (c.toNat - 'a'.toNat + 10)
  else if 'A' ≤ c && c ≤ 'F' then some (c.toNat - 'A'.toNat + 10)
  else none

def hexUnit? (a b c d : Char) : Option Nat := do
  return (((← hexDigit? a) * 16 + (← hexDigit? b)) * 16 + (← hexDigit? c)) * 16 + (← hexDigit? d)

def isHighSurrogate (u : Nat) : Bool :=
  0xD800 ≤ u && u ≤ 0xDBFF

def isLowSurrogate (u : Nat) : Bool :=
  0xDC00 ≤ u && u ≤ 0xDFFF

def escaped? (c : Char) : Option Char :=
  match c with
  | '"' => some '"'
  | '\\' => some '\\'
  | '/' => some '/'
  | 'b' => some '\x08'
  | 'f' => some '\x0c'
  | 'n' => some '\n'
  | 'r' => some '\r'
  | 't' => some '\t'
  | _ => none

/-- What has been read of a text: its characters, the last one first, a first half of a surrogate
pair that waits for the second, and whether every surrogate so far has found its partner. -/
structure Reading where
  chars : List Char
  high : Option Nat
  paired : Bool

def Reading.push (r : Reading) (c : Char) : Reading :=
  ⟨c :: r.chars, none, r.paired && r.high.isNone⟩

def Reading.pushUnit (r : Reading) (u : Nat) : Reading :=
  match r.high with
  | some h =>
    if isLowSurrogate u then
      ⟨Char.ofNat (0x10000 + (h - 0xD800) * 0x400 + (u - 0xDC00)) :: r.chars, none, r.paired⟩
    else ⟨r.chars, none, false⟩
  | none =>
    if isHighSurrogate u then { r with high := some u }
    else if isLowSurrogate u then { r with paired := false }
    else r.push (Char.ofNat u)

def Reading.finish (r : Reading) : Option String :=
  if r.paired && r.high.isNone then some (String.ofList r.chars.reverse) else none

def readTextFrom? (r : Reading) : List Char → Option (Option String × List Char)
  | [] => none
  | '"' :: rest => some (r.finish, rest)
  | '\\' :: 'u' :: a :: b :: c :: d :: rest =>
    match hexUnit? a b c d with
    | some u => readTextFrom? (r.pushUnit u) rest
    | none => none
  | '\\' :: c :: rest =>
    match escaped? c with
    | some x => readTextFrom? (r.push x) rest
    | none => none
  | c :: rest => if c < ' ' then none else readTextFrom? (r.push c) rest

/-- Reads the rest of a text after its opening quote. The text itself is missing when a surrogate in
it has no partner. -/
def readText? (cs : List Char) : Option (Option String × List Char) :=
  readTextFrom? ⟨[], none, true⟩ cs

/-- Reads items divided by commas up to the closing character. -/
def readItems? {α : Type} (read : List Char → Option (α × List Char)) (close : Char) :
    Nat → List Char → Option (List α × List Char)
  | 0, _ => none
  | n + 1, cs => do
    let (x, cs) ← read cs
    match skipBlanks cs with
    | ',' :: cs =>
      let (xs, cs) ← readItems? read close n cs
      return (x :: xs, cs)
    | c :: cs => if c == close then return ([x], cs) else none
    | [] => none

def readMember? (read : List Char → Option (Json × List Char)) (cs : List Char) :
    Option ((Option String × Json) × List Char) := do
  match skipBlanks cs with
  | '"' :: cs =>
    let (name, cs) ← readText? cs
    match skipBlanks cs with
    | ':' :: cs =>
      let (v, cs) ← read cs
      return ((name, v), cs)
    | _ => none
  | _ => none

/-- An object, if all its names can be read. -/
def ofMembers (members : List (Option String × Json)) : Json :=
  match members.mapM fun (m : Option String × Json) => m.1.map fun name => (name, m.2) with
  | some ms => .obj ms
  | none => .unreadable

/-- Reads a value. Every level of nesting and every item takes at least one character, so a fuel of
the number of characters is enough. -/
def readValue? : Nat → List Char → Option (Json × List Char)
  | 0, _ => none
  | n + 1, cs =>
    match skipBlanks cs with
    | [] => none
    | '"' :: cs =>
      (readText? cs).map fun (s, cs) => (s.elim .unreadable .str, cs)
    | '[' :: cs =>
      match skipBlanks cs with
      | ']' :: cs => some (.arr [], cs)
      | cs => (readItems? (readValue? n) ']' n cs).map fun (xs, cs) => (.arr xs, cs)
    | '\x7b' :: cs =>
      match skipBlanks cs with
      | '\x7d' :: cs => some (.obj [], cs)
      | cs =>
        (readItems? (readMember? (readValue? n)) '\x7d' n cs).map fun (ms, cs) => (ofMembers ms, cs)
    | 't' :: 'r' :: 'u' :: 'e' :: cs => some (.bool true, cs)
    | 'f' :: 'a' :: 'l' :: 's' :: 'e' :: cs => some (.bool false, cs)
    | 'n' :: 'u' :: 'l' :: 'l' :: cs => some (.null, cs)
    | cs => readNumber? cs

/-- The document that a text holds. -/
def parse? (text : String) : Option Json :=
  let cs := text.toList
  match readValue? (cs.length + 1) cs with
  | some (j, rest) => if (skipBlanks rest).isEmpty then some j else none
  | none => none

/-- The plain value that a text holds. -/
def parsePlain? (text : String) : Option Json :=
  (parse? text).bind plain?

end CodeSurvey.Json
