/-!
# Digests

Words and bytes in the order of a digest, and the hexadecimal form in which digests are compared.
-/
namespace CodeSurvey.Digest

/-- The list in groups of `n`; the last group may be shorter. -/
def groups {α : Type} (n : Nat) (xs : List α) : List (List α) :=
  if n = 0 ∨ xs.length = 0 then []
  else xs.take n :: groups n (xs.drop n)
termination_by xs.length
decreasing_by
  simp only [List.length_drop]
  omega

/-- The number whose most significant byte comes first. -/
def bigEndian (bytes : List UInt8) : Nat :=
  bytes.foldl (fun n b => n * 256 + b.toNat) 0

/-- The number whose least significant byte comes first. -/
def littleEndian (bytes : List UInt8) : Nat :=
  bigEndian bytes.reverse

/-- The least significant `count` bytes of a number, the least significant one first. -/
def littleEndianBytes : Nat → Nat → List UInt8
  | 0, _ => []
  | count + 1, n => n.toUInt8 :: littleEndianBytes count (n / 256)

def bigEndianBytes (count n : Nat) : List UInt8 :=
  (littleEndianBytes count n).reverse

def rotateRight (x : UInt32) (n : UInt32) : UInt32 :=
  (x >>> n) ||| (x <<< (32 - n))

def hexDigits (b : UInt8) : List Char :=
  [Nat.digitChar (b.toNat / 16), Nat.digitChar (b.toNat % 16)]

/-- Two small hexadecimal digits for every byte. -/
def hex (bytes : List UInt8) : String :=
  String.ofList (bytes.flatMap hexDigits)

end CodeSurvey.Digest
