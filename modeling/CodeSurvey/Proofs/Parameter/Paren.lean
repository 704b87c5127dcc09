import CodeSurvey.Proofs.Text.Cut
import Mathlib.Order.Bounds.Basic

/-!
# Parentheses and their partners

The balance of a part of a text is the number of opening parentheses in it less that of closing
ones. The partner of an opening parenthesis stands at the first place behind it where the balance
from the parenthesis on is back at zero. The search for that place counts the open parentheses. Its
count is the balance, which is positive all the way, so it never falls below zero. What lies between
partners is balanced, and so two pairs of one text lie apart, or one of them lies inside the other.
-/
namespace CodeSurvey

namespace Paren

/-- Opening parentheses less closing ones. -/
def balance (bytes : List UInt8) : Int :=
  bytes.count '('.toUInt8 - bytes.count ')'.toUInt8

/-- No parenthesis closes that was not opened, and none is left open. -/
structure Balanced (bytes : List UInt8) : Prop where
  opened : ∀ i, 0 ≤ balance (bytes.take i)
  closed : balance bytes = 0

@[simp] theorem balance_nil : balance [] = 0 :=
  rfl

theorem balance_append (bs cs : List UInt8) : balance (bs ++ cs) = balance bs + balance cs := by
  simp only [balance, List.count_append]
  omega

theorem balance_cons (b : UInt8) (bs : List UInt8) : balance (b :: bs) = balance [b] + balance bs :=
  balance_append [b] bs

theorem balance_of_not_mem {bs : List UInt8} (hopen : '('.toUInt8 ∉ bs)
    (hclose : ')'.toUInt8 ∉ bs) :
    balance bs = 0 := by
  rw [balance, List.count_eq_zero.2 hopen, List.count_eq_zero.2 hclose]
  rfl

@[simp] theorem balance_open : balance ['('.toUInt8] = 1 :=
  rfl

@[simp] theorem balance_close : balance [')'.toUInt8] = -1 :=
  rfl

theorem balance_other {b : UInt8} (hopen : b ≠ '('.toUInt8) (hclose : b ≠ ')'.toUInt8) :
    balance [b] = 0 :=
  balance_of_not_mem (by simpa using hopen.symm) (by simpa using hclose.symm)

/-- A positive balance stays so unless it is one and a parenthesis closes. -/
theorem balance_step {depth : Int} (hdepth : 0 < depth) (b : UInt8) :
    0 < depth + balance [b] ∨ depth = 1 ∧ b = ')'.toUInt8 := by
  by_cases hopen : b = '('.toUInt8
  · left
    rw [hopen, balance_open]
    omega
  · by_cases hclose : b = ')'.toUInt8
    · by_cases hone : depth = 1
      · exact .inr ⟨hone, hclose⟩
      · left
        rw [hclose, balance_close]
        omega
    · left
      rwa [balance_other hopen hclose, Int.add_zero]

/-- Of `depth` open parentheses one at least is open behind every part of the bytes. -/
def StaysOpen (depth : Int) (bs : List UInt8) : Prop :=
  ∀ i, 0 < depth + balance (bs.take i)

theorem staysOpen_nil {depth : Int} : StaysOpen depth [] ↔ 0 < depth := by
  simp [StaysOpen]

theorem StaysOpen.pos {depth : Int} {bs : List UInt8} (h : StaysOpen depth bs) : 0 < depth := by
  simpa using h 0

theorem staysOpen_cons {depth : Int} {b : UInt8} {bs : List UInt8} :
    StaysOpen depth (b :: bs) ↔ 0 < depth ∧ StaysOpen (depth + balance [b]) bs := by
  have hcons : ∀ i, balance ((b :: bs).take (i + 1)) = balance [b] + balance (bs.take i) :=
    fun i => by
    rw [List.take_succ_cons, balance_cons]
  constructor
  · intro h
    refine ⟨h.pos, fun i => ?_⟩
    have hi := h (i + 1)
    rw [hcons] at hi
    omega
  · rintro ⟨hdepth, h⟩ i
    cases i with
    | zero => simpa using hdepth
    | succ i =>
      have hi := h i
      rw [hcons]
      omega

theorem staysOpen_of_not_mem {depth : Int} (hdepth : 0 < depth) {bs : List UInt8}
    (hopen : '('.toUInt8 ∉ bs) (hclose : ')'.toUInt8 ∉ bs) : StaysOpen depth bs := by
  intro i
  rwa [balance_of_not_mem (mt List.mem_of_mem_take hopen) (mt List.mem_of_mem_take hclose),
    Int.add_zero]

/-- Parentheses stay open to the end, or there is a first place at which the last one closes. -/
theorem exists_fall {depth : Int} (hdepth : 0 < depth) (bs : List UInt8) :
    StaysOpen depth bs ∨
      ∃ inner rest, bs = inner ++ ')'.toUInt8 :: rest ∧ StaysOpen depth inner ∧
      depth + balance inner = 1 := by
  induction bs generalizing depth with
  | nil => exact .inl (staysOpen_nil.2 hdepth)
  | cons b bs ih =>
    rcases balance_step hdepth b with hstep | ⟨rfl, rfl⟩
    · rcases ih hstep with hopen | ⟨inner, rest, rfl, hopen, hlast⟩
      · exact .inl (staysOpen_cons.2 ⟨hdepth, hopen⟩)
      · refine .inr ⟨b :: inner, rest, rfl, staysOpen_cons.2 ⟨hdepth, hopen⟩, ?_⟩
        rw [balance_cons, ← Int.add_assoc, hlast]
    · exact .inr ⟨[], bs, rfl, staysOpen_nil.2 hdepth, rfl⟩

/-! ### The count of the search -/

inductive CountError where
  /-- A parenthesis closes while none is open. -/
  | belowZero
  deriving DecidableEq, Repr

/-- One open parenthesis less. -/
def closeOne : Nat → Except CountError Nat
  | 0 => .error .belowZero
  | depth + 1 => .ok depth

/-- The search byte by byte from `offset` on, where `depth` parentheses are open. It ends where the
last of them closes, and fails if the count would fall below zero. -/
def search (offset depth : Nat) : List UInt8 → Except CountError (Option Nat)
  | [] => .ok none
  | b :: bs =>
    if b = '('.toUInt8 then search (offset + 1) (depth + 1) bs
    else if b = ')'.toUInt8 then do
      let depth ← closeOne depth
      if depth = 0 then .ok (some offset) else search (offset + 1) depth bs
    else search (offset + 1) depth bs

theorem search_open (offset depth : Nat) (bs : List UInt8) :
    search offset depth ('('.toUInt8 :: bs) = search (offset + 1) (depth + 1) bs := by
  rw [search, if_pos rfl]

theorem search_last (offset : Nat) (bs : List UInt8) :
    search offset 1 (')'.toUInt8 :: bs) = .ok (some offset) := by
  rw [search, if_neg (by decide), if_pos rfl]
  rfl

/-- One step of the search: while parentheses are open, their number changes as the balance does. -/
theorem search_cons {depth : Nat} {b : UInt8} (hdepth : 0 < depth) (hnext : 0 < depth + balance [b])
    (offset : Nat) (bs : List UInt8) :
    search offset depth (b :: bs) = search (offset + 1) (depth + balance [b]).toNat bs := by
  by_cases hopen : b = '('.toUInt8
  · subst hopen
    rw [search_open, balance_open]
    rfl
  · by_cases hclose : b = ')'.toUInt8
    · subst hclose
      obtain ⟨more, rfl⟩ : ∃ more, depth = more + 2 := by
        rw [balance_close] at hnext
        exact ⟨depth - 2, by omega⟩
      have hcount : ((more + 2 : Nat) + -1 : Int).toNat = more + 1 := by omega
      rw [search, if_neg hopen, if_pos rfl, balance_close, hcount]
      rfl
    · rw [search, if_neg hopen, if_neg hclose, balance_other hopen hclose, Int.add_zero,
        Int.toNat_natCast]

/-- A whole run of the search over bytes behind which parentheses are still open: its count is the
balance. -/
theorem search_append {depth : Nat} {bs : List UInt8} (h : StaysOpen depth bs) (offset : Nat)
    (rest : List UInt8) :
    search offset depth (bs ++ rest) = search (offset + bs.length)
      (depth + balance bs).toNat rest := by
  induction bs generalizing offset depth with
  | nil => simp
  | cons b bs ih =>
    obtain ⟨hdepth, hlater⟩ := staysOpen_cons.1 h
    have hcount : (((depth + balance [b]).toNat : Nat) : Int) = depth + balance [b] :=
      Int.toNat_of_nonneg (Int.le_of_lt hlater.pos)
    have hstep := search_cons (Int.natCast_pos.1 hdepth) hlater.pos offset (bs ++ rest)
    rw [← hcount] at hlater
    rw [List.cons_append, hstep, ih hlater, hcount, balance_cons b bs, List.length_cons,
      Int.add_assoc, Nat.add_assoc, Nat.add_comm 1]

/-- While parentheses are open, the search character by character finds what the search byte by byte
finds, whose count does not fall below zero. -/
theorem search_encode {depth : Nat} (hdepth : 0 < depth) (offset : Nat) (cs : List Char) :
    search offset depth (Text.Utf8.encode cs) = .ok (closeFrom offset depth cs) := by
  induction cs generalizing offset depth with
  | nil => rw [Text.Utf8.encode_nil, search, closeFrom]
  | cons c cs ih =>
    rw [Text.Utf8.encode_cons, closeFrom]
    by_cases hopen : c = '('
    · subst hopen
      rw [if_pos (by rfl), ← ih (Nat.succ_pos depth)]
      exact search_open offset depth _
    · rw [if_neg (by simpa using hopen)]
      by_cases hclose : c = ')'
      · subst hclose
        have hbyte : String.utf8EncodeChar ')' ++ Text.Utf8.encode cs =
            ')'.toUInt8 :: Text.Utf8.encode cs := rfl
        rw [if_pos (by rfl), hbyte]
        by_cases hlast : depth ≤ 1
        · obtain rfl : depth = 1 := by omega
          rw [if_pos hlast, search_last]
        · have hcount : (depth + balance [')'.toUInt8] : Int).toNat = depth - 1 := by
            rw [balance_close]
            omega
          rw [if_neg hlast, search_cons hdepth (by rw [balance_close]; omega), hcount,
            ih (by omega)]
      · have hfree : '('.toUInt8 ∉ String.utf8EncodeChar c ∧
          ')'.toUInt8 ∉ String.utf8EncodeChar c :=
          ⟨Text.Utf8.ascii_not_mem (by decide) hopen, Text.Utf8.ascii_not_mem (by decide) hclose⟩
        have hstays := staysOpen_of_not_mem (Int.natCast_pos.2 hdepth) hfree.1 hfree.2
        rw [if_neg (by simpa using hclose), search_append hstays,
          balance_of_not_mem hfree.1 hfree.2, Int.add_zero, Int.toNat_natCast,
          String.length_utf8EncodeChar, ih hdepth]

/-! ### Partners -/

/-- The parentheses at the two offsets have a balanced part between them. -/
def Partners (bytes : List UInt8) (opening closing : Nat) : Prop :=
  ∃ front inner rest, bytes = front ++ '('.toUInt8 :: (inner ++ ')'.toUInt8 :: rest) ∧
    front.length = opening ∧
    closing = opening + 1 + inner.length ∧ Balanced inner

theorem extract_append (front : List UInt8) (b : UInt8) (tail : List UInt8) (n : Nat) :
    (front ++ b :: tail).extract front.length (front.length + 1 + n) = b :: tail.take n := by
  have hlength : front.length + 1 + n - front.length = n + 1 := by omega
  rw [List.extract_eq_take_drop, List.drop_left, hlength, List.take_succ_cons]

namespace Partners

variable {bytes : List UInt8} {opening closing : Nat}

theorem lt (h : Partners bytes opening closing) : opening < closing := by
  obtain ⟨front, inner, rest, -, -, rfl, -⟩ := h
  omega

theorem getElem?_closing (h : Partners bytes opening closing) :
    bytes[closing]? = some ')'.toUInt8 := by
  obtain ⟨front, inner, rest, rfl, rfl, rfl, -⟩ := h
  have hcut : front ++ '('.toUInt8 :: (inner ++ ')'.toUInt8 :: rest) =
      (front ++ '('.toUInt8 :: inner) ++ ')'.toUInt8 :: rest := by simp
  have hlength : front.length + 1 + inner.length = (front ++ '('.toUInt8 :: inner).length := by
    rw [List.length_append, List.length_cons]
    omega
  rw [hcut, hlength, List.getElem?_append_right (Nat.le_refl _), Nat.sub_self]
  rfl

theorem balanced (h : Partners bytes opening closing) :
    Balanced (bytes.extract (opening + 1) closing) := by
  obtain ⟨front, inner, rest, rfl, rfl, rfl, hinner⟩ := h
  have hcut : front ++ '('.toUInt8 :: (inner ++ ')'.toUInt8 :: rest) =
      (front ++ ['('.toUInt8]) ++ (inner ++ ')'.toUInt8 :: rest) := by simp
  have hlength : front.length + 1 = (front ++ ['('.toUInt8]).length := by simp
  rwa [List.extract_eq_take_drop, hcut, hlength, List.drop_left, Nat.add_sub_cancel_left,
    List.take_left]

theorem balance_pos (h : Partners bytes opening closing) {i : Nat} (hfirst : opening < i)
    (hlast : i ≤ closing) :
    0 < balance (bytes.extract opening i) := by
  obtain ⟨front, inner, rest, rfl, rfl, rfl, hinner⟩ := h
  obtain ⟨n, rfl⟩ := Nat.exists_eq_add_of_le (Nat.succ_le_of_lt hfirst)
  have hn := hinner.opened n
  rw [extract_append, List.take_append_of_le_length (by omega), balance_cons, balance_open]
  omega

theorem balance_closing (h : Partners bytes opening closing) :
    balance (bytes.extract opening (closing + 1)) = 0 := by
  obtain ⟨front, inner, rest, rfl, rfl, rfl, hinner⟩ := h
  have hlength : inner.length + 1 = (inner ++ [')'.toUInt8]).length := by simp
  rw [Nat.add_assoc, extract_append, List.append_cons, hlength, List.take_left, balance_cons,
    balance_append, hinner.closed, balance_open, balance_close]
  rfl

/-- The closing parenthesis stands at the first place up to which there are as many of one kind as
of the other. -/
theorem isLeast (h : Partners bytes opening closing) :
    IsLeast {i | opening < i ∧ i < bytes.length ∧ balance (bytes.extract opening (i + 1)) = 0}
      closing := by
  refine ⟨⟨h.lt, (List.getElem?_eq_some_iff.1 h.getElem?_closing).1, h.balance_closing⟩, ?_⟩
  rintro i ⟨hi, -, hzero⟩
  by_contra hlt
  have hpos := h.balance_pos (i := i + 1) (by omega) (by omega)
  omega

/-- A pair that opens inside another one closes inside it. -/
theorem lt_of_inside (h : Partners bytes opening closing) {opening' closing' : Nat}
    (h' : Partners bytes opening' closing') (hopening : opening < opening')
    (hclosing : opening' ≤ closing) :
    closing' < closing := by
  have hbefore := h.balance_pos hopening hclosing
  have hzero := h.balance_closing
  have hcut : bytes.extract opening (closing + 1) =
      bytes.extract opening opening' ++ bytes.extract opening' (closing + 1) := by
    have hdrop : opening + (opening' - opening) = opening' := by omega
    have htake : closing + 1 - opening = (opening' - opening) + (closing + 1 - opening') := by omega
    rw [List.extract_eq_take_drop, htake, List.take_add, List.drop_drop, hdrop]
  -- the first pair has more closing parentheses than opening ones left, so the second one is not
  -- open any more
  rw [hcut, balance_append] at hzero
  by_contra hlt
  rcases Nat.eq_or_lt_of_le (Nat.le_of_not_lt hlt) with rfl | hlt
  · have hend := h'.balance_closing
    omega
  · have hpos := h'.balance_pos (i := closing + 1) (by omega) (by omega)
    omega

theorem nested (h : Partners bytes opening closing) {opening' closing' : Nat}
    (h' : Partners bytes opening' closing') (hne : opening ≠ opening') :
    (closing < opening' ∨ closing' < opening) ∨
      opening < opening' ∧ closing' < closing ∨ opening' < opening ∧ closing < closing' := by
  rcases Nat.lt_or_gt_of_ne hne with hlt | hlt
  · by_cases hclosing : opening' ≤ closing
    · exact .inr (.inl ⟨hlt, h.lt_of_inside h' hlt hclosing⟩)
    · omega
  · by_cases hclosing : opening ≤ closing'
    · exact .inr (.inr ⟨hlt, h'.lt_of_inside h hlt hclosing⟩)
    · omega

end Partners

/-- From an opening parenthesis the search ends at its partner, or the parenthesis stays open to the
end. -/
theorem search_partner_or_open (front tail : List UInt8) :
    (∃ closing, search front.length 0 ('('.toUInt8 :: tail) = .ok (some closing) ∧
        Partners (front ++ '('.toUInt8 :: tail) front.length closing) ∨
      search front.length 0 ('('.toUInt8 :: tail) = .ok none ∧
        ∀ i, front.length < i → 0 < balance ((front ++ '('.toUInt8 :: tail).extract front.length
          i) := by
  rw [search_open]
  rcases exists_fall (Int.natCast_pos.2 Nat.one_pos)
    tail with hopen | ⟨inner, rest, rfl, hopen, hlast⟩
  · right
    constructor
    · have hrun := search_append hopen (front.length + 1) []
      rwa [List.append_nil, search] at hrun
    · intro i hi
      obtain ⟨n, rfl⟩ := Nat.exists_eq_add_of_le (Nat.succ_le_of_lt hi)
      rw [extract_append, balance_cons, balance_open]
      exact hopen n
  · left
    have hinner : Balanced inner := by
      refine ⟨fun i => ?_, by omega⟩
      have hi := hopen i
      omega
    refine ⟨_, ?_, front, inner, rest, rfl, rfl, rfl, hinner⟩
    rw [search_append hopen, hlast]
    exact search_last _ rest

/-- The function takes the offset of each opening parenthesis to that of its partner. -/
structure Pairs (bytes : List UInt8) (partner? : Nat → Option Nat) : Prop where
  none_of_ne : ∀ opening, bytes[opening]? ≠ some '('.toUInt8 → partner? opening = none
  /-- A count that starts at the parenthesis finds the partner without falling below zero. -/
  search_eq : ∀ opening, bytes[opening]? = some '('.toUInt8 →
    search opening 0 (bytes.drop opening) = .ok (partner? opening)
  eq_some_iff : ∀ opening closing, bytes[opening]? = some '('.toUInt8 →
    (partner? opening = some closing ↔
      IsLeast {i | opening < i ∧ i < bytes.length ∧ balance (bytes.extract opening (i + 1)) = 0}
        closing)
  inside : ∀ opening closing, partner? opening = some closing →
    bytes[closing]? = some ')'.toUInt8 ∧ Balanced (bytes.extract (opening + 1) closing)
  eq_none_iff : ∀ opening, bytes[opening]? = some '('.toUInt8 →
    (partner? opening = none ↔ ∀ i, opening < i → i ≤ bytes.length →
      0 < balance (bytes.extract opening i))
  /-- Two pairs lie apart, or one of them lies inside the other. -/
  nested : ∀ opening closing opening' closing', opening ≠ opening' →
    partner? opening = some closing →
    partner? opening' = some closing' →
      (closing < opening' ∨ closing' < opening) ∨
        opening < opening' ∧ closing' < closing ∨ opening' < opening ∧ closing < closing'

end Paren

section Matching

open Paren

variable {text : List Char} {opening closing : Nat}

theorem matchingParen?_of_ne (h : (Text.Utf8.encode text)[opening]? ≠ some '('.toUInt8) :
    matchingParen? text opening = none := by
  refine Option.eq_none_iff_forall_ne_some.2 fun closing hclosing => h ?_
  obtain ⟨front, inner, rest, htext, hfront, -, -⟩ := matchingParen?_eq_some_iff.1 hclosing
  exact (Text.Utf8.getElem?_encode_ascii_iff (by decide)).2 ⟨front, _, htext, hfront⟩

theorem search_eq_matchingParen? (h : (Text.Utf8.encode text)[opening]? = some '('.toUInt8) :
    search opening 0 ((Text.Utf8.encode text).drop opening) =
      .ok (matchingParen? text opening) := by
  obtain ⟨front, rest, rfl, rfl⟩ := (Text.Utf8.getElem?_encode_ascii_iff (by decide)).1 h
  have hdrop : (Text.Utf8.encode (front ++ '(' :: rest)).drop (Text.size front) =
      '('.toUInt8 :: Text.Utf8.encode rest := by
    rw [Text.Utf8.encode_append, ← Text.Utf8.length_encode, List.drop_left, Text.Utf8.encode_cons]
    rfl
  rw [hdrop, search_open, search_encode Nat.one_pos, matchingParen?, Text.dropBytes?_append]
  rfl

theorem partner_or_open (h : (Text.Utf8.encode text)[opening]? = some '('.toUInt8) :
    (∃ closing, matchingParen? text opening = some closing ∧
      Partners (Text.Utf8.encode text) opening closing) ∨
      matchingParen? text opening = none ∧
        ∀ i, opening < i → 0 < balance ((Text.Utf8.encode text).extract opening i) := by
  have hsearch := search_eq_matchingParen? h
  obtain ⟨hlt, hbyte⟩ := List.getElem?_eq_some_iff.1 h
  obtain ⟨front, tail, hbytes, rfl⟩ : ∃ front tail, Text.Utf8.encode text =
      front ++ '('.toUInt8 :: tail ∧
      front.length = opening := by
    refine ⟨(Text.Utf8.encode text).take opening, (Text.Utf8.encode text).drop (opening + 1), ?_,
      ?_⟩
    · rw [← hbyte, ← List.drop_eq_getElem_cons hlt, List.take_append_drop]
    · rw [List.length_take]
      omega
  rw [hbytes, List.drop_left] at hsearch
  rw [hbytes]
  rcases search_partner_or_open front tail with ⟨closing, hclosing, hpartners⟩ | ⟨hnone, hpos⟩
  · rw [hclosing, Except.ok.injEq] at hsearch
    exact .inl ⟨closing, hsearch.symm, hpartners⟩
  · rw [hnone, Except.ok.injEq] at hsearch
    exact .inr ⟨hsearch.symm, hpos⟩

theorem partners_of_matchingParen? (h : matchingParen? text opening = some closing) :
    Partners (Text.Utf8.encode text) opening closing := by
  by_cases hbyte : (Text.Utf8.encode text)[opening]? = some '('.toUInt8
  · rcases partner_or_open hbyte with ⟨found, hfound, hpartners⟩ | ⟨hnone, -⟩
    · obtain rfl : found = closing := Option.some.inj (hfound.symm.trans h)
      exact hpartners
    · rw [hnone] at h
      cases h
  · rw [matchingParen?_of_ne hbyte] at h
    cases h

/-- In every text, opening parentheses are paired with those that close them. -/
theorem matchingParen?_pairs (text : List Char) :
    Pairs (Text.Utf8.encode text) (matchingParen? text) where
  none_of_ne _ := matchingParen?_of_ne
  search_eq _ := search_eq_matchingParen?
  eq_some_iff opening closing hbyte := by
    refine ⟨fun h => (partners_of_matchingParen? h).isLeast, fun hleast => ?_⟩
    rcases partner_or_open hbyte with ⟨found, hfound, hpartners⟩ | ⟨-, hpos⟩
    · rwa [hleast.unique hpartners.isLeast]
    · obtain ⟨hlt, -, hzero⟩ := hleast.1
      have hclosing := hpos (closing + 1) (by omega)
      omega
  inside _ _ h := ⟨(partners_of_matchingParen? h).getElem?_closing,
    (partners_of_matchingParen? h).balanced⟩
  eq_none_iff opening hbyte := by
    rcases partner_or_open hbyte with ⟨found, hfound, hpartners⟩ | ⟨hnone, hpos⟩
    · obtain ⟨hlt, hlength, hzero⟩ := hpartners.isLeast.1
      constructor
      · intro h
        rw [h] at hfound
        cases hfound
      · intro h
        have hpos := h (found + 1) (by omega) (by omega)
        omega
    · exact ⟨fun _ i hi _ => hpos i hi, fun _ => hnone⟩
  nested _ _ _ _ hne h h' := (partners_of_matchingParen? h).nested
    (partners_of_matchingParen? h') hne

/-- A call among the parameters of another one, and a parenthesis that stays open. The first
character has two bytes. -/
def nestedCall : List Char :=
  "λ(a, g(b))(".toList

theorem matchingParen?_pairs_nestedCall :
    (matchingParen? nestedCall 2 = some 10 ∧ matchingParen? nestedCall 7 = some 9 ∧
        matchingParen? nestedCall 11 = none) ∧
      search 2 0 ((Text.Utf8.encode nestedCall).drop 2) = .ok (some 10) ∧
      IsLeast {i | 2 < i ∧ i < (Text.Utf8.encode nestedCall).length ∧
        balance ((Text.Utf8.encode nestedCall).extract 2 (i + 1)) = 0} 10 ∧
      Balanced ((Text.Utf8.encode nestedCall).extract 3 10) ∧
      (∀ i, 11 < i → i ≤ (Text.Utf8.encode nestedCall).length →
        0 < balance ((Text.Utf8.encode nestedCall).extract 11 i)) ∧
      ((10 < 7 ∨ 9 < 2) ∨ 2 < 7 ∧ 9 < 10 ∨ 7 < 2 ∧ 10 < 9) := by
  have houter : matchingParen? nestedCall 2 = some 10 := by decide
  have hinner : matchingParen? nestedCall 7 = some 9 := by decide
  have hnone : matchingParen? nestedCall 11 = none := by decide
  have hbytes : (Text.Utf8.encode nestedCall)[2]? = some '('.toUInt8 ∧
      (Text.Utf8.encode nestedCall)[11]? = some '('.toUInt8 := by
    rw [Text.Utf8.encode_eq_flatMap]
    decide
  have hpairs := matchingParen?_pairs nestedCall
  have hsearch := hpairs.search_eq 2 hbytes.1
  rw [houter] at hsearch
  exact ⟨⟨houter, hinner, hnone⟩, hsearch, (hpairs.eq_some_iff 2 10 hbytes.1).1 houter,
    (hpairs.inside 2 10 houter).2, (hpairs.eq_none_iff 11 hbytes.2).1 hnone,
    hpairs.nested 2 10 7 9 (by decide) houter hinner⟩

end Matching

end CodeSurvey
