import CodeSurvey.Parameter
import CodeSurvey.Proofs.Text.Offset
import Mathlib.Data.List.Basic

/-!
# Brackets around separators

The depth of a place in a text is the number of brackets opened before it less the number of those
closed. If it is never negative, a scan marks a separator only where the depth is zero, whatever
stands around the text.
-/
namespace CodeSurvey.Parameter

variable {sep : Char} {angle : Bool} {cs ds : List Char} {P Q : Mark → Prop}

/-- What the character adds to the number of open brackets. -/
def nesting (angle : Bool) (prior : Option Char) (c : Char) : Int :=
  if isArrowTip prior c then 0
  else if opensBracket angle c then 1
  else if closesBracket angle c then -1
  else 0

/-- The brackets that a text opens less those that it closes. -/
def excess (angle : Bool) (prior : Option Char) : List Char → Int
  | [] => 0
  | c :: cs => nesting angle prior c + excess angle (some c) cs

/-- The number of brackets that are open in front of place `i`. -/
def depthAt (angle : Bool) (cs : List Char) (i : Nat) : Int :=
  excess angle none (cs.take i)

/-- No bracket closes that was not opened, and none is left open. Brackets of different kinds may
close each other. -/
structure Balanced (angle : Bool) (cs : List Char) : Prop where
  opened : ∀ i, 0 ≤ depthAt angle cs i
  closed : excess angle none cs = 0

/-- The character stands at place `i`, outside brackets. -/
structure OutsideAt (angle : Bool) (cs : List Char) (i : Nat) (c : Char) : Prop where
  char : cs[i]? = some c
  depth : depthAt angle cs i = 0

theorem balanced_iff :
    Balanced angle cs ↔ (∀ i < cs.length, 0 ≤ depthAt angle cs i) ∧ excess angle none cs = 0 := by
  refine ⟨fun h => ⟨fun i _ => h.opened i, h.closed⟩,
    fun ⟨hopened, hclosed⟩ => ⟨fun i => ?_, hclosed⟩⟩
  by_cases hi : i < cs.length
  · exact hopened i hi
  · have hend : depthAt angle cs i = 0 := by
      rw [depthAt, List.take_of_length_le (Nat.le_of_not_lt hi), hclosed]
    exact Int.le_of_eq hend.symm

instance : Decidable (Balanced angle cs) :=
  decidable_of_iff _ balanced_iff.symm

theorem forall_outsideAt_iff {c : Char} {Q : Nat → Prop} :
    (∀ i, OutsideAt angle cs i c → Q i) ↔
    ∀ i < cs.length, cs[i]? = some c ∧ depthAt angle cs i = 0 → Q i := by
  refine ⟨fun h i _ hi => h i ⟨hi.1, hi.2⟩, fun h i hi => ?_⟩
  exact h i (List.getElem?_eq_some_iff.1 hi.char).1 ⟨hi.char, hi.depth⟩

def brackets : List Char :=
  ['(', ')', '[', ']', '\x7b', '\x7d', '<', '>']

/-- The character is no bracket of any kind. -/
def Plain (c : Char) : Prop :=
  c ∉ brackets

instance : DecidablePred Plain :=
  fun c => inferInstanceAs (Decidable (c ∉ brackets))

theorem Plain.isArrowTip {c : Char} (h : Plain c) (prior : Option Char) :
    isArrowTip prior c = false := by
  have hc : c ≠ '>' := by
    rintro rfl
    exact absurd h (by decide)
  simp [Parameter.isArrowTip, hc]

theorem Plain.opensBracket {c : Char} (h : Plain c) (angle : Bool) :
    opensBracket angle c = false := by
  simp only [Plain, brackets, List.mem_cons, not_or] at h
  simp [Parameter.opensBracket, h]

theorem Plain.closesBracket {c : Char} (h : Plain c) (angle : Bool) :
    closesBracket angle c = false := by
  simp only [Plain, brackets, List.mem_cons, not_or] at h
  simp [Parameter.closesBracket, h]

theorem Plain.nesting {c : Char} (h : Plain c) (angle : Bool) (prior : Option Char) :
    nesting angle prior c = 0 := by
  rw [Parameter.nesting, h.isArrowTip, h.opensBracket, h.closesBracket]
  rfl

/-- Text without brackets opens and closes nothing. -/
theorem excess_of_forall (h : ∀ c ∈ cs, Plain c) (prior : Option Char) :
    excess angle prior cs = 0 := by
  induction cs generalizing prior with
  | nil => rfl
  | cons c cs ih =>
    obtain ⟨hc, hcs⟩ := List.forall_mem_cons.1 h
    rw [excess, hc.nesting, ih hcs, Int.add_zero]

theorem balanced_of_forall (h : ∀ c ∈ cs, Plain c) : Balanced angle cs where
  opened _ := Int.le_of_eq (excess_of_forall (fun c hc => h c (List.mem_of_mem_take hc)) none).symm
  closed := excess_of_forall h none

theorem isArrowTip_none (c : Char) : isArrowTip none c = false := by
  simp [isArrowTip]

theorem isArrowTip_space (c : Char) : isArrowTip (some ' ') c = false := by
  simp [isArrowTip]

/-- What stands before a text matters only if it makes an arrow with the first character. -/
theorem excess_of_prior {prior : Option Char} (h : ∀ c, isArrowTip prior c = false)
    (cs : List Char) :
    excess angle prior cs = excess angle none cs := by
  cases cs with
  | nil => rfl
  | cons c cs =>
    rw [excess, excess, nesting, nesting, h c, isArrowTip_none]

/-! ### The scan -/

/-- One step of the scan. -/
theorem marksFrom_cons (hsep : Plain sep) (angle : Bool) (offset depth : Nat) (prior : Option Char)
    (c : Char) (cs : List Char) :
    marksFrom sep angle offset depth prior (c :: cs) =
      (if c = sep ∧ depth = 0 then [⟨offset, prior, cs.head?⟩] else []) ++
        marksFrom sep angle (offset + c.utf8Size) (depth + nesting angle prior c).toNat
          (some c) cs := by
  by_cases hc : c = sep
  · subst hc
    rw [hsep.nesting, marksFrom, hsep.isArrowTip, hsep.opensBracket, hsep.closesBracket]
    by_cases hdepth : depth = 0 <;> simp [hdepth]
  · have hbeq : (c == sep) = false := beq_false_of_ne hc
    have hclose : (depth + -1 : Int).toNat = depth - 1 := by omega
    rw [if_neg fun h => hc h.1, List.nil_append, marksFrom, nesting, hbeq, Bool.false_and,
      if_neg Bool.false_ne_true]
    split_ifs
    · simp
    · rfl
    · rw [hclose]
    · simp

/-- A whole run of the scan over a text in which no bracket closes that was not opened. -/
theorem marksFrom_append (hsep : Plain sep) {depth : Nat} {prior : Option Char}
    (h : ∀ i, 0 ≤ depth + excess angle prior (cs.take i)) (offset : Nat) (rest : List Char) :
    ∃ ms, marksFrom sep angle offset depth prior (cs ++ rest) =
        ms ++ marksFrom sep angle (offset + Text.size cs) (depth + excess angle prior cs).toNat
          (cs.getLast?.or prior) rest ∧
      ∀ m ∈ ms, ∃ i, cs[i]? = some sep ∧ depth + excess angle prior (cs.take i) = 0 ∧
        m.next = (cs ++ rest)[i + 1]? := by
  induction cs generalizing depth prior offset with
  | nil => exact ⟨[], by simp [excess], List.forall_mem_nil _⟩
  | cons c cs ih =>
    have hstep : 0 ≤ depth + nesting angle prior c := by simpa [excess] using h 1
    have hdepth : (((depth + nesting angle prior c).toNat : Nat) : Int) =
      depth + nesting angle prior c :=
      Int.toNat_of_nonneg hstep
    have hlater : ∀ i, 0 ≤ ((depth + nesting angle prior c).toNat : Int) +
        excess angle (some c) (cs.take i) := by
      intro i
      have hi := h (i + 1)
      rw [List.take_succ_cons, excess] at hi
      omega
    -- the rest is scanned from the depth that the first character leaves
    obtain ⟨ms, hmarks, hms⟩ := ih hlater (offset + c.utf8Size)
    rw [hdepth] at hmarks hms
    refine ⟨(if c = sep ∧ depth = 0 then [⟨offset, prior, (cs ++ rest).head?⟩] else []) ++ ms, ?_,
      ?_⟩
    · rw [List.cons_append, marksFrom_cons hsep, hmarks, List.append_assoc, excess, Int.add_assoc,
        Text.size_cons, Nat.add_assoc, List.getLast?_cons]
      cases cs.getLast? <;> rfl
    · intro m hm
      rcases List.mem_append.1 hm with hm | hm
      · split at hm
        · rename_i hfirst
          obtain rfl := List.mem_singleton.1 hm
          refine ⟨0, ?_, ?_, ?_⟩
          · simp [hfirst.1]
          · simp [hfirst.2, excess]
          · simp [List.head?_eq_getElem?]
        · cases hm
      · obtain ⟨i, hi, hzero, hnext⟩ := hms m hm
        refine ⟨i + 1, ?_, ?_, ?_⟩
        · simpa using hi
        · rw [List.take_succ_cons, excess]
          omega
        · simpa using hnext

/-- A scan that comes to the text outside brackets leaves it outside brackets, with marks that have
property `P`. -/
def Scans (sep : Char) (angle : Bool) (P : Mark → Prop) (cs : List Char) : Prop :=
  ∀ offset prior rest, (∀ c, isArrowTip prior c = false) →
    ∃ ms, marksFrom sep angle offset 0 prior (cs ++ rest) =
        ms ++ marksFrom sep angle (offset + Text.size cs) 0 (cs.getLast?.or prior) rest ∧
      ∀ m ∈ ms, P m

theorem Scans.mono (h : Scans sep angle P cs) (hPQ : ∀ m, P m → Q m) : Scans sep angle Q cs := by
  intro offset prior rest hprior
  obtain ⟨ms, hmarks, hms⟩ := h offset prior rest hprior
  exact ⟨ms, hmarks, fun m hm => hPQ m (hms m hm)⟩

/-- A text that is never marked. -/
theorem Scans.skip (h : Scans sep angle (fun _ => False) cs) (offset : Nat) {prior : Option Char}
    (rest : List Char) (hprior : ∀ c, isArrowTip prior c = false) :
    marksFrom sep angle offset 0 prior (cs ++ rest) =
      marksFrom sep angle (offset + Text.size cs) 0 (cs.getLast?.or prior) rest := by
  obtain ⟨ms, hmarks, hms⟩ := h offset prior rest hprior
  rwa [List.eq_nil_iff_forall_not_mem.2 hms] at hmarks

theorem Scans.append (h : Scans sep angle P cs) (hd : Scans sep angle P ds) (hsep : Plain sep)
    (hspace : sep ≠ ' ') :
    Scans sep angle P (cs ++ ' ' :: ds) := by
  intro offset prior rest hprior
  obtain ⟨ms, hmarks, hms⟩ := h offset prior (' ' :: (ds ++ rest)) hprior
  obtain ⟨ns, hlater, hns⟩ := hd (offset + Text.size cs + ' '.utf8Size)
    (some ' ') rest isArrowTip_space
  refine ⟨ms ++ ns, ?_, List.forall_mem_append.2 ⟨hms, hns⟩⟩
  have hnesting : nesting angle (cs.getLast?.or prior) ' ' = 0 := Plain.nesting (by decide) _ _
  rw [marksFrom_cons hsep, hnesting, if_neg fun h => hspace h.1.symm, List.nil_append] at hmarks
  have hlast : (cs ++ ' ' :: ds).getLast?.or prior = ds.getLast?.or (some ' ') := by
    rw [List.getLast?_append, List.getLast?_cons]
    cases ds.getLast? <;> rfl
  rw [List.append_assoc, List.cons_append, hmarks, hlast, Text.size_append, Text.size_cons,
    ← Nat.add_assoc, ← Nat.add_assoc, List.append_assoc, ← hlater]
  rfl

/-- In a balanced text only separators outside brackets are marked. -/
theorem Balanced.scans (h : Balanced angle cs) (hsep : Plain sep) :
    Scans sep angle (fun m => ∃ i, OutsideAt angle cs i sep ∧ ∀ c ∈ cs[i + 1]?, m.next = some c)
      cs := by
  intro offset prior rest hprior
  have hopened : ∀ i, 0 ≤ ((0 : Nat) : Int) + excess angle prior (cs.take i) := by
    intro i
    rw [Int.natCast_zero, Int.zero_add, excess_of_prior hprior]
    exact h.opened i
  obtain ⟨ms, hmarks, hms⟩ := marksFrom_append hsep hopened offset rest
  have hclosed : (((0 : Nat) : Int) + excess angle prior cs).toNat = 0 := by
    rw [excess_of_prior hprior, h.closed]
    rfl
  rw [hclosed] at hmarks
  refine ⟨ms, hmarks, ?_⟩
  intro m hm
  obtain ⟨i, hi, hzero, hnext⟩ := hms m hm
  rw [Int.natCast_zero, Int.zero_add, excess_of_prior hprior] at hzero
  refine ⟨i, ⟨hi, hzero⟩, ?_⟩
  intro c hc
  rw [hnext, List.getElem?_append_left (List.getElem?_eq_some_iff.1 hc).1, hc]

theorem Balanced.scans_of_forall_not (h : Balanced angle cs) (hsep : Plain sep)
    (hnone : ∀ i, ¬ OutsideAt angle cs i sep) :
    Scans sep angle (fun _ => False) cs :=
  (h.scans hsep).mono fun _ ⟨i, hi, _⟩ => hnone i hi

theorem scans_of_forall (h : ∀ c ∈ cs, Plain c) (hsep : Plain sep) (hnone : sep ∉ cs) :
    Scans sep angle (fun _ => False) cs :=
  (balanced_of_forall h).scans_of_forall_not hsep fun _ hi => hnone (List.mem_of_getElem? hi.char)

end CodeSurvey.Parameter
