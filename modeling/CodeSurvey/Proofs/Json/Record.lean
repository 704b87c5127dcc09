import CodeSurvey.Json.Record
import CodeSurvey.Proofs.Table

/-!
# Records read back

What a reader finds in the plain value of a document, one law for each way of writing a value. A
record is read field by field, so the order that a plain value gives to its members does not matter.
-/
namespace CodeSurvey.Json

/-- In the plain value of `j`, which has at most `levels` levels, `read` finds `a`. -/
def Holds {α : Type} (read : Json → Option α) (levels : Nat) (j : Json) (a : α) : Prop :=
  ∃ plain, j.plainWithin? levels = some plain ∧ read plain = some a

/-! ### Single values -/

@[simp] theorem plainWithin?_str (levels : Nat) (s : String) :
    (str s).plainWithin? levels = some (.str s) := by
  cases levels <;> rfl

@[simp] theorem plainWithin?_bool (levels : Nat) (b : Bool) :
    (bool b).plainWithin? levels = some (.bool b) := by
  cases levels <;> rfl

@[simp] theorem plainWithin?_ofNat (levels n : Nat) :
    (ofNat n).plainWithin? levels = some (.ofNat n) := by
  cases levels <;> rfl

section
variable {α : Type} {read : Json → Option α} {levels : Nat}

theorem holds_str (s : String) : Holds str? levels (.str s) s :=
  ⟨_, plainWithin?_str levels s, rfl⟩

theorem holds_bool (b : Bool) : Holds bool? levels (.bool b) b :=
  ⟨_, plainWithin?_bool levels b, rfl⟩

theorem holds_natBelow {bound n : Nat} (h : n < bound) :
    Holds (natBelow? bound) levels (.ofNat n) n :=
  ⟨_, plainWithin?_ofNat levels n, if_pos h⟩

theorem Holds.isSome {j : Json} {a : α} (h : Holds read levels j a) :
    (j.plainWithin? levels).isSome := by
  obtain ⟨plain, hplain, -⟩ := h
  rw [hplain]
  rfl

theorem holds_looselyLabelled {ofLabel : String → Option α} {s : String} {a : α}
    (h : ofLabel s = some a) :
    Holds (looselyLabelled? ofLabel) levels (.str s) a :=
  ⟨_, plainWithin?_str levels s, h⟩

theorem holds_labelled {ofLabel : String → Option α} {s : String} {a : α} (h : ofLabel s = some a) :
    Holds (labelled? ofLabel) levels (.str s) a :=
  ⟨_, plainWithin?_str levels s, h⟩

theorem Holds.nullable {j : Json} {a : α} (h : Holds read levels j a) (hnull : read .null = none) :
    Holds (nullable? read) levels j (some a) := by
  obtain ⟨plain, hplain, hread⟩ := h
  refine ⟨plain, hplain, ?_⟩
  unfold nullable?
  split
  · rw [hnull] at hread
    cases hread
  · rw [hread]
    rfl

theorem holds_list {f : α → Json} {xs : List α} (h : ∀ x ∈ xs, Holds read levels (f x) x) :
    Holds (list? read) (levels + 1) (.arr (xs.map f)) xs := by
  have hplain : ∃ plains, (xs.map f).mapM (plainWithin? levels) = some plains ∧
      plains.mapM read = some xs := by
    induction xs with
    | nil => exact ⟨[], rfl, rfl⟩
    | cons x xs ih =>
      obtain ⟨plains, hplains, hreads⟩ := ih fun y hy => h y (List.mem_cons_of_mem x hy)
      obtain ⟨plain, hp, hr⟩ := h x (by simp)
      exact ⟨plain :: plains, by simp [hp, hplains], by simp [hr, hreads]⟩
  obtain ⟨plains, hplains, hreads⟩ := hplain
  exact ⟨.arr plains, by rw [plainWithin?, hplains]; rfl, hreads⟩

end

/-! ### Records -/

@[simp] theorem lookup_member? {α : Type} (k name : String) (f : α → Json) (v : Option α) :
    (member? name f v).lookup k = if k = name then v.map f else none := by
  cases v with
  | none => simp [member?]
  | some a => rw [member?, Table.lookup_cons_eq_ite, List.lookup_nil]; rfl

/-- `p` holds of the value of every member. -/
def Each (p : Json → Prop) (members : List (String × Json)) : Prop :=
  ∀ m ∈ members, p m.2

section
variable {p : Json → Prop}

@[simp] theorem each_nil : Each p [] := by
  simp [Each]

@[simp] theorem each_cons {name : String} {j : Json} {members : List (String × Json)} :
    Each p ((name, j) :: members) ↔ p j ∧ Each p members :=
  List.forall_mem_cons

@[simp] theorem each_append {members others : List (String × Json)} :
    Each p (members ++ others) ↔ Each p members ∧ Each p others :=
  List.forall_mem_append

@[simp] theorem each_member? {α : Type} {name : String} {f : α → Json} {v : Option α} :
    Each p (member? name f v) ↔ ∀ a ∈ v, p (f a) := by
  cases v <;> simp [member?]

end

/-- The members with their plain values. -/
def plainMembers (levels : Nat) (members : List (String × Json)) : List (String × Json) :=
  members.map fun m => (m.1, (m.2.plainWithin? levels).getD .null)

theorem map_fst_plainMembers (levels : Nat) (members : List (String × Json)) :
    (plainMembers levels members).map Prod.fst = members.map Prod.fst := by
  simp [plainMembers, Function.comp_def]

section
variable {levels : Nat} {members : List (String × Json)}
  (hplain : Each (fun j => (j.plainWithin? levels).isSome) members)
include hplain

theorem plainWithin?_obj :
    (obj members).plainWithin? (levels + 1) =
      some (.obj (Table.ofList (plainMembers levels members))) := by
  have hmembers : members.mapM (fun m : String × Json => (plainWithin? levels m.2).map
    (Prod.mk m.1)) =
      some (plainMembers levels members) := by
    induction members with
    | nil => rfl
    | cons m members ih =>
      obtain ⟨plain, hp⟩ := Option.isSome_iff_exists.1 (each_cons.1 hplain).1
      simp [hp, ih (each_cons.1 hplain).2, plainMembers]
  rw [plainWithin?, hmembers]
  rfl

theorem lookup_plainMembers (k : String) :
    (plainMembers levels members).lookup k = (members.lookup k).bind (plainWithin? levels) := by
  rw [plainMembers, Table.lookup_map k fun j => (plainWithin? levels j).getD .null]
  cases hj : members.lookup k with
  | none => rfl
  | some j =>
    obtain ⟨plain, hp⟩ := Option.isSome_iff_exists.1 (hplain _ (Table.mem_of_lookup hj))
    simp [hp]

variable (hnodup : (members.map Prod.fst).Nodup)
include hnodup

theorem get?_ofList_plainMembers (k : String) :
    (Table.ofList (plainMembers levels members)).get? k =
      (members.lookup k).bind (plainWithin? levels) := by
  rw [Table.get?_ofList, Table.lookup_reverse (by rwa [map_fst_plainMembers]),
    lookup_plainMembers hplain]

theorem get?_plain {plain : Json} (h : (obj members).plainWithin? (levels + 1) = some plain)
    (k : String) :
    plain.get? k = (members.lookup k).bind (plainWithin? levels) := by
  rw [plainWithin?_obj hplain, Option.some.injEq] at h
  rw [← h, get?, Table.lookup_reverse (Table.sorted_ofList _).nodup_keys]
  exact get?_ofList_plainMembers hplain hnodup k

end

/-- `fs` are the fields of the plain value of an object, each with at most `levels` levels. -/
def FieldsOf (levels : Nat) (members : List (String × Json)) (names : List String)
    (fs : List (String × Json)) : Prop :=
  ∀ name ∈ names, fs.lookup name = (members.lookup name).bind (plainWithin? levels)

theorem holds_record {α : Type} {read : Json → Option α} {names : List String}
    {build : List (String × Json) → Option α} (hread : ∀ j, read j = (j.fields? names).bind build)
    {levels : Nat} {members : List (String × Json)}
    (hplain : Each (fun j => (j.plainWithin? levels).isSome) members)
    (hnodup : (members.map Prod.fst).Nodup) {a : α}
    (hbuild : ∀ fs, FieldsOf levels members names fs → build fs = some a) :
    Holds read (levels + 1) (.obj members) a := by
  have hsorted := (Table.sorted_ofList (plainMembers levels members)).filter fun m =>
    names.contains m.1
  refine ⟨_, plainWithin?_obj hplain, ?_⟩
  rw [hread, fields?, if_pos hsorted.nodup_keys]
  refine hbuild _ ?_
  intro name hname
  rw [Table.lookup_filter name names.contains, if_pos (by simpa using hname)]
  exact get?_ofList_plainMembers hplain hnodup name

section
variable {α : Type} {read : Json → Option α} {levels : Nat} {members fs : List (String × Json)}
  {names : List String}

theorem FieldsOf.required (h : FieldsOf levels members names fs) (name : String)
    (hname : name ∈ names) {j : Json} {a : α} (hj : members.lookup name = some j)
    (hread : Holds read levels j a) :
    required fs name read = some a := by
  obtain ⟨plain, hplain, hr⟩ := hread
  rw [Json.required, h name hname, hj, Option.bind_some, hplain, Option.bind_some, hr]

theorem FieldsOf.defaulted (h : FieldsOf levels members names fs) (name : String)
    (hname : name ∈ names) {j : Json} {a : α} (hj : members.lookup name = some j)
    (hread : Holds read levels j a) (value : α) :
    defaulted fs name value read = some a := by
  obtain ⟨plain, hplain, hr⟩ := hread
  rw [Json.defaulted, h name hname, hj, Option.bind_some, hplain]
  exact hr

theorem FieldsOf.missing (h : FieldsOf levels members names fs) (name : String)
    (hname : name ∈ names) (hj : members.lookup name = none) (value : α) :
      Json.defaulted fs name value read = some value := by
  rw [Json.defaulted, h name hname, hj]
  rfl

/-- A field that is written only if there is a value for it. -/
theorem FieldsOf.optional (h : FieldsOf levels members names fs) (name : String)
    (hname : name ∈ names) {f : α → Json} {v : Option α} (hj : members.lookup name = v.map f)
    (hnull : read .null = none) (hread : ∀ a ∈ v, Holds read levels (f a) a) :
    Json.defaulted fs name none (nullable? read) = some v := by
  cases v with
  | none => exact h.missing name hname hj none
  | some a => exact h.defaulted name hname hj ((hread a rfl).nullable hnull) none

end

end CodeSurvey.Json
