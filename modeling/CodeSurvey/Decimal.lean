/-!
# Shortest decimals

The decimal text of a double: the digits are those of the coarsest decimal grid that has a point
among the reals which round to the value.
-/
namespace CodeSurvey.Decimal

/-- A positive double, `mantissa * 2 ^ exponent`. -/
structure Dyadic where
  mantissa : Nat
  exponent : Int
  /-- The gap to the next smaller double is half the gap to the next larger one. -/
  narrow : Bool
  deriving Repr

/-- The double with the given bits, which are those of a finite value; the sign is ignored. -/
def Dyadic.ofBits (bits : UInt64) : Dyadic :=
  let field := ((bits >>> 52) &&& 0x7FF).toNat
  let fraction := (bits &&& 0xFFFFFFFFFFFFF).toNat
  if field = 0 then ⟨fraction, -1074, false⟩
  else ⟨0x10000000000000 + fraction, field - 1075, fraction == 0 && 1 < field⟩

/-- `digits * 10 ^ exponent`. -/
structure Scaled where
  digits : Nat
  exponent : Int
  deriving DecidableEq, Repr

/-- The value divided by `10 ^ e`, as a quotient of naturals. -/
def Dyadic.over (d : Dyadic) (e : Int) : Nat × Nat :=
  (d.mantissa * Nat.pow 2 d.exponent.toNat * Nat.pow 10 (-e).toNat,
    Nat.pow 2 (-d.exponent).toNat * Nat.pow 10 e.toNat)

/-- Whether `k * 10 ^ e` rounds to the value, where `num / den` is the value over `10 ^ e`. The
ends of the interval belong to an even mantissa. -/
def Dyadic.rounds (d : Dyadic) (num den k : Nat) : Bool :=
  let low := (4 * d.mantissa - if d.narrow then 1 else 2) * num
  let high := (4 * d.mantissa + 2) * num
  let point := 4 * d.mantissa * den * k
  if d.mantissa % 2 = 0 then low ≤ point && point ≤ high else low < point && point < high

/-- The multiple of `10 ^ e` that rounds to the value; of two, the nearer, and the even one if both
are as near. -/
def Dyadic.onGrid? (d : Dyadic) (e : Int) : Option Nat :=
  let (num, den) := d.over e
  let k := num / den
  match d.rounds num den k, d.rounds num den (k + 1) with
  | true, true =>
    if 2 * num < (2 * k + 1) * den || (2 * num = (2 * k + 1) * den && k % 2 = 0) then some k
    else some (k + 1)
  | true, false => some k
  | false, true => some (k + 1)
  | false, false => none

/-- The first hit on the grids `10 ^ e`, `10 ^ (e - 1)` and so on. -/
def Dyadic.search (d : Dyadic) : Nat → Int → Scaled
  | 0, e => ⟨(d.over e).1 / (d.over e).2, e⟩
  | n + 1, e =>
    match d.onGrid? e with
    | some k => ⟨k, e⟩
    | none => d.search n (e - 1)

/-- The fewest digits that read back as the value. No double reaches `10 ^ 309`, and none needs a
digit below `10 ^ (-324 - 17)`. -/
def Dyadic.shortest (d : Dyadic) : Scaled :=
  d.search 660 309

private def zeros (n : Nat) : String :=
  String.ofList (List.replicate n '0')

/-- Positional from `10 ^ -5` up to below `10 ^ 16`, with at least one decimal place; otherwise one
digit before the point and a signed exponent. -/
def Scaled.text (s : Scaled) : String :=
  let digits := toString s.digits
  let point := (digits.length : Int) + s.exponent
  if -5 < point && point ≤ 16 then
    if 0 ≤ s.exponent then digits ++ zeros s.exponent.toNat ++ ".0"
    else if 0 < point then
      String.ofList (digits.toList.take point.toNat) ++ "." ++
        String.ofList (digits.toList.drop point.toNat)
    else "0." ++ zeros (-point).toNat ++ digits
  else
    let first := String.ofList (digits.toList.take 1)
    let more := String.ofList (digits.toList.drop 1)
    let mantissa := if more.isEmpty then first else first ++ "." ++ more
    let e := point - 1
    mantissa ++ (if e < 0 then "e-" else "e+") ++ toString e.natAbs

/-- The text of a finite double. -/
def text (x : Float) : String :=
  let bits := x.toBits
  let sign := if bits >>> 63 = 1 then "-" else ""
  let d := Dyadic.ofBits bits
  if d.mantissa = 0 then sign ++ "0.0" else sign ++ d.shortest.text

end CodeSurvey.Decimal
