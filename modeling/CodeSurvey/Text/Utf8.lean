/-!
# UTF-8

Bytes are decoded without failure: every longest start of a character that is not followed by the
rest of it, and every byte that starts none, stands for one replacement character.
-/
namespace CodeSurvey.Text.Utf8

def replacement : Char :=
  Char.ofNat 0xFFFD

/-- A character of which some bytes are still to come. -/
structure Pending where
  /-- The value of the bytes so far. -/
  value : Nat
  /-- How many bytes are missing. -/
  missing : Nat
  /-- The bounds of the next byte. -/
  low : Nat
  high : Nat
  deriving DecidableEq, Repr

/-- What the first byte of a character of several bytes promises. The bounds of the second byte keep
out overlong forms, surrogates and values beyond the last code point. -/
def pending? (b : Nat) : Option Pending :=
  if 0xC2 ≤ b && b ≤ 0xDF then some ⟨b - 0xC0, 1, 0x80, 0xBF⟩
  else if b == 0xE0 then some ⟨0, 2, 0xA0, 0xBF⟩
  else if b == 0xED then some ⟨0xD, 2, 0x80, 0x9F⟩
  else if 0xE1 ≤ b && b ≤ 0xEF then some ⟨b - 0xE0, 2, 0x80, 0xBF⟩
  else if b == 0xF0 then some ⟨0, 3, 0x90, 0xBF⟩
  else if b == 0xF4 then some ⟨4, 3, 0x80, 0x8F⟩
  else if 0xF1 ≤ b && b ≤ 0xF3 then some ⟨b - 0xF0, 3, 0x80, 0xBF⟩
  else none

/-- Decodes bytes after the start of a character, if there is one. The second part tells whether
nothing had to be replaced. -/
def decodeFrom : Option Pending → List UInt8 → List Char × Bool
  | none, [] => ([], true)
  | some _, [] => ([replacement], false)
  | p, byte :: rest =>
    let b := byte.toNat
    match p.filter fun p => p.low ≤ b && b ≤ p.high with
    | some p =>
      let value := p.value * 64 + (b - 0x80)
      if p.missing ≤ 1 then
        let (cs, ok) := decodeFrom none rest
        (Char.ofNat value :: cs, ok)
      else decodeFrom (some ⟨value, p.missing - 1, 0x80, 0xBF⟩) rest
    | none =>
      let lost := if p.isSome then [replacement] else []
      if b < 0x80 then
        let (cs, ok) := decodeFrom none rest
        (lost ++ Char.ofNat b :: cs, ok && lost.isEmpty)
      else
        match pending? b with
        | some q =>
          let (cs, ok) := decodeFrom (some q) rest
          (lost ++ cs, ok && lost.isEmpty)
        | none => (lost ++ replacement :: (decodeFrom none rest).1, false)

/-- The characters, with replacements for what is not UTF-8. -/
def decode (bytes : List UInt8) : List Char :=
  (decodeFrom none bytes).1

/-- The characters, if all bytes are UTF-8. -/
def decode? (bytes : List UInt8) : Option (List Char) :=
  match decodeFrom none bytes with
  | (cs, true) => some cs
  | (_, false) => none

def encode (cs : List Char) : List UInt8 :=
  (String.ofList cs).toUTF8.toList

end CodeSurvey.Text.Utf8
