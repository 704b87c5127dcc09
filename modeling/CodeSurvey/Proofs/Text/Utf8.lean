import CodeSurvey.Text.Utf8
import Mathlib.Algebra.GroupWithZero.Nat
import Mathlib.Tactic.SplitIfs

/-!
# UTF-8 read back

What a string writes as bytes is decoded to the same characters, without a replacement. A byte of
ASCII stands for itself in all bytes, and a decoded text has no more characters than there were
bytes.
-/
namespace CodeSurvey.Text.Utf8

/-- Puts a character in front of what was decoded. -/
def push (c : Char) (decoded : List Char × Bool) : List Char × Bool :=
  (c :: decoded.1, decoded.2)

private theorem toNat_ofNat {n : Nat} (h : n < 256) : (UInt8.ofNat n).toNat = n := by
  simp [Nat.mod_eq_of_lt h]

theorem decodeFrom_ascii {n : Nat} (h : n < 0x80) (rest : List UInt8) :
    decodeFrom none (UInt8.ofNat n :: rest) = push (Char.ofNat n) (decodeFrom none rest) := by
  rw [decodeFrom, toNat_ofNat (by omega)]
  simp [h, push]

theorem decodeFrom_start {n : Nat} {p : Pending} (hn : n < 256) (hb : 0x80 ≤ n)
    (hp : pending? n = some p) (rest : List UInt8) :
      decodeFrom none (UInt8.ofNat n :: rest) = decodeFrom (some p) rest := by
  rw [decodeFrom, toNat_ofNat hn]
  simp [Nat.not_lt.mpr hb, hp]

/-- A byte within the bounds adds six bits to the value. -/
private theorem decodeFrom_within {x : Nat} {p : Pending} (hx : x < 64) (hl : p.low ≤ x + 0x80)
    (hh : x + 0x80 ≤ p.high) (rest : List UInt8) :
    decodeFrom (some p) (UInt8.ofNat (x + 0x80) :: rest) =
      if p.missing ≤ 1 then push (Char.ofNat (p.value * 64 + x)) (decodeFrom none rest)
      else decodeFrom (some ⟨p.value * 64 + x, p.missing - 1, 0x80, 0xBF⟩) rest := by
  have hfits : (some p).filter (fun p => p.low ≤ x + 0x80 && x + 0x80 ≤ p.high) = some p := by
    simp [Option.filter, hl, hh]
  rw [decodeFrom, toNat_ofNat (by omega), hfits, Nat.add_sub_cancel]
  rfl

theorem decodeFrom_last {x value low high : Nat} (hx : x < 64) (hl : low ≤ x + 0x80)
    (hh : x + 0x80 ≤ high) (rest : List UInt8) :
    decodeFrom (some ⟨value, 1, low, high⟩) (UInt8.ofNat (x + 0x80) :: rest) =
      push (Char.ofNat (value * 64 + x)) (decodeFrom none rest) := by
  rw [decodeFrom_within hx hl hh, if_pos (Nat.le_refl 1)]

theorem decodeFrom_more {x value missing low high : Nat} (hx : x < 64) (hl : low ≤ x + 0x80)
    (hh : x + 0x80 ≤ high) (rest : List UInt8) :
    decodeFrom (some ⟨value, missing + 2, low, high⟩) (UInt8.ofNat (x + 0x80) :: rest) =
      decodeFrom (some ⟨value * 64 + x, missing + 1, 0x80, 0xBF⟩) rest := by
  rw [decodeFrom_within hx hl hh, if_neg (by simp)]
  rfl

/-! ### The first byte of a character of several bytes -/

private theorem pending?_two {v : Nat} (hlow : 0x7f < v) (hhigh : v ≤ 0x7ff) :
    pending? (v / 64 + 0xc0) = some ⟨v / 64, 1, 0x80, 0xBF⟩ := by
  have hl : 0xC2 ≤ v / 64 + 0xc0 := by omega
  have hh : v / 64 + 0xc0 ≤ 0xDF := by omega
  simp [pending?, hl, hh]

/-- The bounds for the second byte leave room for every character of three bytes, surrogates being
none. -/
private theorem pending?_three {v : Nat} (hlow : 0x7ff < v) (hhigh : v ≤ 0xffff)
    (hvalid : v < 0xd800 ∨ 0xdfff < v) :
    ∃ low high, pending? (v / 4096 + 0xe0) = some ⟨v / 4096, 2, low, high⟩ ∧
      low ≤ v / 64 % 64 + 0x80 ∧ v / 64 % 64 + 0x80 ≤ high := by
  have hmod : v / 64 % 64 = v / 64 - 64 * (v / 4096) := by omega
  simp only [pending?, Bool.and_eq_true, decide_eq_true_eq, beq_iff_eq]
  split_ifs with h₁ h₂ h₃ h₄
  · omega
  · exact ⟨0xA0, 0xBF, by simp; omega, by omega, by omega⟩
  · exact ⟨0x80, 0x9F, by simp; omega, by omega, by omega⟩
  · exact ⟨0x80, 0xBF, by simp, by omega, by omega⟩
  all_goals omega

private theorem pending?_four {v : Nat} (hlow : 0xffff < v) (hhigh : v < 0x110000) :
    ∃ low high, pending? (v / 262144 + 0xf0) = some ⟨v / 262144, 3, low, high⟩ ∧
      low ≤ v / 4096 % 64 + 0x80 ∧ v / 4096 % 64 + 0x80 ≤ high := by
  have hmod : v / 4096 % 64 = v / 4096 - 64 * (v / 262144) := by omega
  simp only [pending?, Bool.and_eq_true, decide_eq_true_eq, beq_iff_eq]
  split_ifs with h₁ h₂ h₃ h₄ h₅ h₆ h₇
  · omega
  · omega
  · omega
  · omega
  · exact ⟨0x90, 0xBF, by simp; omega, by omega, by omega⟩
  · exact ⟨0x80, 0x8F, by simp; omega, by omega, by omega⟩
  · exact ⟨0x80, 0xBF, by simp, by omega, by omega⟩
  · omega

theorem decodeFrom_encodeChar (c : Char) (rest : List UInt8) :
    decodeFrom none (String.utf8EncodeChar c ++ rest) = push c (decodeFrom none rest) := by
  have hc : Char.ofNat c.toNat = c := Char.ofNat_toNat c
  have hvalid : c.toNat < 0xd800 ∨ 0xdfff < c.toNat ∧ c.toNat < 0x110000 := c.valid
  simp only [String.utf8EncodeChar, Char.toNat] at hc hvalid ⊢
  generalize c.val.toNat = v at hc hvalid ⊢
  split_ifs with h₁ h₂ h₃
  · rw [List.cons_append, List.nil_append, decodeFrom_ascii (by omega), hc]
  · have hv : v / 64 * 64 + v % 64 = v := by omega
    have hm : v % 64 < 64 := by omega
    rw [show v / 64 % 32 = v / 64 by omega]
    simp only [List.cons_append, List.nil_append]
    rw [decodeFrom_start (by omega) (by omega) (pending?_two (by omega) h₂),
      decodeFrom_last hm (by omega) (by omega), hv, hc]
  · obtain ⟨low, high, hp, hl, hh⟩ := pending?_three (v := v) (by omega) h₃ (by omega)
    have hv : (v / 4096 * 64 + v / 64 % 64) * 64 + v % 64 = v := by omega
    have hm : v % 64 < 64 := by omega
    rw [show v / 4096 % 16 = v / 4096 by omega]
    simp only [List.cons_append, List.nil_append]
    rw [decodeFrom_start (by omega) (by omega) hp, decodeFrom_more (by omega) hl hh,
      decodeFrom_last hm (by omega) (by omega), hv, hc]
  · obtain ⟨low, high, hp, hl, hh⟩ := pending?_four (v := v) (by omega) (by omega)
    have hv : ((v / 262144 * 64 + v / 4096 % 64) * 64 + v / 64 % 64) * 64 + v % 64 = v := by omega
    have hm : v % 64 < 64 := by omega
    have hn : v / 64 % 64 < 64 := by omega
    rw [show v / 262144 % 8 = v / 262144 by omega]
    simp only [List.cons_append, List.nil_append]
    rw [decodeFrom_start (by omega) (by omega) hp, decodeFrom_more (by omega) hl hh,
      decodeFrom_more hn (by omega) (by omega), decodeFrom_last hm (by omega) (by omega), hv, hc]

theorem decodeFrom_flatMap (cs : List Char) :
    decodeFrom none (cs.flatMap String.utf8EncodeChar) = (cs, true) := by
  induction cs with
  | nil => rfl
  | cons c cs ih => rw [List.flatMap_cons, decodeFrom_encodeChar, ih, push]

private theorem byteArray_toList_loop (bytes : ByteArray) (i : Nat) (r : List UInt8) :
    ByteArray.toList.loop bytes i r = r.reverse ++ bytes.data.toList.drop i := by
  fun_induction ByteArray.toList.loop bytes i r with
  | case1 i r hi ih =>
    have hsize : i < bytes.data.toList.length := by simpa using hi
    have hget : bytes.get! i = bytes.data.toList[i] := by
      simp [ByteArray.get!, getElem!_pos bytes.data i (by simpa using hi)]
    rw [ih, List.drop_eq_getElem_cons hsize, hget]
    simp
  | case2 i r hi =>
    have hsize : bytes.data.toList.length ≤ i := by simpa using hi
    rw [List.drop_eq_nil_of_le hsize, List.append_nil]

theorem byteArray_toList (bytes : ByteArray) : bytes.toList = bytes.data.toList := by
  simp [ByteArray.toList, byteArray_toList_loop]

theorem toList_toUTF8 (s : String) : s.toUTF8.toList = s.toList.flatMap String.utf8EncodeChar := by
  rw [byteArray_toList, String.toUTF8_eq_toByteArray, ← String.utf8Encode_toList, List.utf8Encode,
    List.toList_data_toByteArray]

theorem decode?_toUTF8 (s : String) : decode? s.toUTF8.toList = some s.toList := by
  rw [decode?, toList_toUTF8, decodeFrom_flatMap]

/-! ### Length -/

private theorem length_lost (p : Option Pending) :
    (if p.isSome then [replacement] else []).length = p.toList.length := by
  cases p <;> rfl

/-- A character that is still waited for may cost one replacement more. -/
theorem length_decodeFrom_le (p : Option Pending) (bytes : List UInt8) :
    (decodeFrom p bytes).1.length ≤ bytes.length + p.toList.length := by
  fun_induction decodeFrom p bytes with
  | case1 => simp
  | case2 => simp
  | case3 p byte rest b q hq value hlast cs ok hrest ih =>
    simp only [hrest, Option.toList_none, List.length_nil, List.length_cons] at ih ⊢
    omega
  | case4 p byte rest b q hq value hmore ih =>
    simp only [Option.toList_some, List.length_nil, List.length_cons] at ih ⊢
    omega
  | case5 p byte rest b hq lost hascii cs ok hrest ih =>
    have hlost : lost.length = p.toList.length := length_lost p
    simp only [hrest, Option.toList_none, List.length_nil, List.length_append,
      List.length_cons] at ih ⊢
    omega
  | case6 p byte rest b hq lost hascii q hstart cs ok hrest ih =>
    have hlost : lost.length = p.toList.length := length_lost p
    simp only [hrest, Option.toList_some, List.length_nil, List.length_append,
      List.length_cons] at ih ⊢
    omega
  | case7 p byte rest b hq lost hascii hstart ih =>
    have hlost : lost.length = p.toList.length := length_lost p
    simp only [Option.toList_none, List.length_nil, List.length_append, List.length_cons] at ih ⊢
    omega

theorem length_decode_le (bytes : List UInt8) : (decode bytes).length ≤ bytes.length := by
  simpa [decode] using length_decodeFrom_le none bytes

/-! ### ASCII bytes -/

/-- What one byte completes, and what it leaves unfinished. -/
def step (p : Option Pending) (byte : UInt8) : List Char × Option Pending :=
  let b := byte.toNat
  match p.filter fun p => p.low ≤ b && b ≤ p.high with
  | some p =>
    let value := p.value * 64 + (b - 0x80)
    if p.missing ≤ 1 then ([Char.ofNat value], none)
    else ([], some ⟨value, p.missing - 1, 0x80, 0xBF⟩)
  | none =>
    let lost := if p.isSome then [replacement] else []
    if b < 0x80 then (lost ++ [Char.ofNat b], none)
    else ((lost ++ if (pending? b).isSome then [] else [replacement]), pending? b)

theorem decodeFrom_cons (p : Option Pending) (byte : UInt8) (rest : List UInt8) :
    (decodeFrom p (byte :: rest)).1 =
      (step p byte).1 ++ (decodeFrom (step p byte).2 rest).1 := by
  rw [decodeFrom, step]
  cases p.filter fun p => p.low ≤ byte.toNat && byte.toNat ≤ p.high with
  | some q => by_cases hlast : q.missing ≤ 1 <;> simp [hlast]
  | none =>
    by_cases hascii : byte.toNat < 0x80
    · simp [hascii]
    · cases pending? byte.toNat <;> simp [hascii]

/-- The bytes to come are beyond ASCII, and the character is. -/
structure Pending.Multibyte (p : Pending) : Prop where
  low : 0x80 ≤ p.low
  value : 0x80 ≤ (p.value * 64 + (p.low - 0x80)) * 64 ^ (p.missing - 1)

theorem multibyte_pending? {b : Nat} {p : Pending} (h : pending? b = some p) : p.Multibyte := by
  unfold pending? at h
  split_ifs at h <;> obtain rfl := Option.some.inj h <;> constructor <;> simp_all <;> omega

theorem Pending.Multibyte.value_le {p : Pending} (h : p.Multibyte) {b : Nat} (hb : p.low ≤ b) :
    0x80 ≤ (p.value * 64 + (b - 0x80)) * 64 ^ (p.missing - 1) := by
  refine Nat.le_trans h.value (Nat.mul_le_mul_right _ ?_)
  omega

theorem Pending.Multibyte.more {p : Pending} (h : p.Multibyte) {b : Nat} (hb : p.low ≤ b)
    (hmore : ¬p.missing ≤ 1) :
    (⟨p.value * 64 + (b - 0x80), p.missing - 1, 0x80, 0xBF⟩ : Pending).Multibyte := by
  refine ⟨Nat.le_refl _, Nat.le_trans (h.value_le hb) (Nat.le_of_eq ?_)⟩
  obtain ⟨n, hn⟩ : ∃ n, p.missing = n + 2 := ⟨p.missing - 2, by omega⟩
  have hsucc : n + 2 - 1 = n + 1 := rfl
  simp only [hn, hsucc, Nat.sub_self, Nat.add_zero, Nat.add_sub_cancel]
  rw [Nat.mul_assoc, ← Nat.pow_succ']

theorem multibyte_step {p : Option Pending} (hp : ∀ q ∈ p, q.Multibyte) (byte : UInt8) :
    ∀ q ∈ (step p byte).2, q.Multibyte := by
  intro q hq
  rw [step] at hq
  cases hfit : p.filter fun p => p.low ≤ byte.toNat && byte.toNat ≤ p.high with
  | some r =>
    obtain ⟨hr, hbounds⟩ := Option.filter_eq_some_iff.1 hfit
    have hlow : r.low ≤ byte.toNat := by simp at hbounds; exact hbounds.1
    by_cases hlast : r.missing ≤ 1
    · simp [hfit, hlast] at hq
    · simp only [hfit, hlast, if_false, Option.mem_some_iff] at hq
      exact hq ▸ (hp r hr).more hlow hlast
  | none =>
    by_cases hascii : byte.toNat < 0x80
    · simp [hfit, hascii] at hq
    · simp only [hfit, hascii, if_false] at hq
      exact multibyte_pending? hq

theorem step_ascii {p : Option Pending} (hp : ∀ q ∈ p, q.Multibyte) {b : UInt8}
    (hb : b.toNat < 0x80) : step p b = ((decodeFrom p []).1 ++ [Char.ofNat b.toNat], none) := by
  have hfit : (p.filter fun p => p.low ≤ b.toNat && b.toNat ≤ p.high) = none := by
    rw [Option.filter_eq_none_iff]
    intro q hq
    have := (hp q hq).low
    simp
    omega
  rw [step]
  simp only [hfit, hb, if_true]
  cases p <;> rfl

/-- A byte of ASCII stands for itself wherever it stands, and ends what was unfinished. -/
theorem decodeFrom_append_ascii {b : UInt8} (hb : b.toNat < 0x80) {p : Option Pending}
    (hp : ∀ q ∈ p, q.Multibyte) (xs ys : List UInt8) :
    (decodeFrom p (xs ++ b :: ys)).1 = (decodeFrom p xs).1 ++ Char.ofNat b.toNat :: decode ys := by
  induction xs generalizing p with
  | nil => rw [List.nil_append, decodeFrom_cons, step_ascii hp hb, List.append_assoc]; rfl
  | cons x xs ih =>
    rw [List.cons_append, decodeFrom_cons, ih (multibyte_step hp x), decodeFrom_cons,
      List.append_assoc]

theorem decode_append_ascii {b : UInt8} (hb : b.toNat < 0x80) (xs ys : List UInt8) :
    decode (xs ++ b :: ys) = decode xs ++ Char.ofNat b.toNat :: decode ys :=
  decodeFrom_append_ascii hb (by simp) xs ys

theorem toNat_charOfNat {n : Nat} (h : n.isValidChar) : (Char.ofNat n).toNat = n := by
  rw [Char.ofNat, dif_pos h]
  rfl

/-- What is no code point is taken for the code point zero. -/
theorem charOfNat_ne {n : Nat} {c : Char} (hn : 0x80 ≤ n) (hc : c.toNat < 0x80)
    (hpos : c.toNat ≠ 0) : Char.ofNat n ≠ c := by
  rintro rfl
  by_cases hvalid : n.isValidChar
  · rw [toNat_charOfNat hvalid] at hc
    omega
  · rw [Char.ofNat, dif_neg hvalid] at hpos
    exact hpos rfl

theorem mem_step {p : Option Pending} (hp : ∀ q ∈ p, q.Multibyte) {byte : UInt8} {c : Char}
    (hc : c.toNat < 0x80) (hpos : c.toNat ≠ 0) (h : c ∈ (step p byte).1) :
    byte.toNat = c.toNat := by
  have hreplacement : replacement ≠ c := charOfNat_ne (by decide) hc hpos
  have hlost : c ∉ (if p.isSome then [replacement] else []) := by
    split <;> simp [hreplacement.symm]
  rw [step] at h
  cases hfit : p.filter fun p => p.low ≤ byte.toNat && byte.toNat ≤ p.high with
  | some r =>
    obtain ⟨hr, hbounds⟩ := Option.filter_eq_some_iff.1 hfit
    have hlow : r.low ≤ byte.toNat := by simp at hbounds; exact hbounds.1
    by_cases hlast : r.missing ≤ 1
    · have hvalue := (hp r hr).value_le hlow
      rw [show r.missing - 1 = 0 by omega, Nat.pow_zero, Nat.mul_one] at hvalue
      simp only [hfit, hlast, if_true, List.mem_singleton] at h
      exact absurd h.symm (charOfNat_ne hvalue hc hpos)
    · simp [hfit, hlast] at h
  | none =>
    by_cases hascii : byte.toNat < 0x80
    · simp only [hfit, hascii, if_true, List.mem_append, hlost, false_or, List.mem_singleton] at h
      rw [h, toNat_charOfNat (.inl (by omega))]
    · simp only [hfit, hascii, if_false, List.mem_append, hlost, false_or] at h
      split at h
      · cases h
      · exact absurd (List.mem_singleton.1 h) hreplacement.symm

/-- A character of ASCII comes from its own byte only. -/
theorem mem_decodeFrom_ascii {c : Char} (hc : c.toNat < 0x80) (hpos : c.toNat ≠ 0)
    {p : Option Pending} (hp : ∀ q ∈ p, q.Multibyte) {bytes : List UInt8}
    (h : c ∈ (decodeFrom p bytes).1) : ∃ b ∈ bytes, b.toNat = c.toNat := by
  induction bytes generalizing p with
  | nil =>
    cases p with
    | none => cases h
    | some q => exact absurd (List.mem_singleton.1 h).symm (charOfNat_ne (by decide) hc hpos)
  | cons b bytes ih =>
    rw [decodeFrom_cons, List.mem_append] at h
    rcases h with h | h
    · exact ⟨b, List.mem_cons_self, mem_step hp hc hpos h⟩
    · obtain ⟨x, hx, heq⟩ := ih (multibyte_step hp b) h
      exact ⟨x, List.mem_cons_of_mem b hx, heq⟩

end CodeSurvey.Text.Utf8
