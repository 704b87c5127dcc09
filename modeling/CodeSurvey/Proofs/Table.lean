import CodeSurvey.Table
import Mathlib.Tactic.SplitIfs

/-!
# Laws of tables

What is found under a key after a change, and the order of the keys, which every change keeps.
-/
namespace CodeSurvey.Table

variable {α β : Type}

/-! ### What is found under a key -/

@[simp] theorem lookup_cons_eq_ite (k : String) (e : String × α) (t : List (String × α)) :
    (e :: t).lookup k = if k = e.1 then some e.2 else t.lookup k := by
  obtain ⟨key, v⟩ := e
  rw [List.lookup_cons]
  split <;> simp_all

theorem get?_cons (k : String) (e : String × α) (t : Table α) :
    get? k (e :: t) = if k = e.1 then some e.2 else t.get? k :=
  lookup_cons_eq_ite k e t

theorem get?_insert (k key : String) (v : α) (t : Table α) :
    (insert key v t).get? k = if k = key then some v else t.get? k := by
  induction t with
  | nil => exact lookup_cons_eq_ite k (key, v) []
  | cons e t ih =>
    by_cases hlt : key < e.1
    · rw [insert, if_pos hlt]
      exact lookup_cons_eq_ite k (key, v) _
    · by_cases heq : key = e.1
      · rw [insert, if_neg hlt, if_pos heq]
        simp only [get?, lookup_cons_eq_ite, heq]
        split_ifs <;> rfl
      · rw [insert, if_neg hlt, if_neg heq]
        simp only [get?, lookup_cons_eq_ite] at ih ⊢
        rw [ih]
        by_cases hk : k = key
        · subst hk
          simp [heq]
        · simp [hk]

theorem get?_modify (k key : String) (init : α) (f : α → α) (t : Table α) :
    (modify key init f t).get? k =
      if k = key then some (f ((t.get? key).getD init)) else t.get? k :=
  get?_insert k key _ t

theorem get?_foldl_insert (k : String) (entries : List (String × α)) (t : Table α) :
    (entries.foldl (fun t (k, v) => insert k v t) t).get? k =
      (entries.reverse.lookup k).or (t.get? k) := by
  induction entries generalizing t with
  | nil => rfl
  | cons e entries ih =>
    rw [List.foldl_cons, ih, get?_insert, List.reverse_cons, List.lookup_append, lookup_cons_eq_ite]
    cases entries.reverse.lookup k with
    | some v => rfl
    | none =>
      simp only [Option.none_or, List.lookup_nil]
      split_ifs <;> rfl

theorem get?_ofList (k : String) (entries : List (String × α)) :
    (ofList entries).get? k = entries.reverse.lookup k := by
  rw [ofList, get?_foldl_insert]
  exact Option.or_none

theorem lookup_filter (k : String) (p : String → Bool) (t : List (String × α)) :
    (t.filter fun e => p e.1).lookup k = if p k then t.lookup k else none := by
  induction t with
  | nil => simp
  | cons e t ih =>
    rw [List.filter_cons, lookup_cons_eq_ite]
    by_cases hp : p e.1 = true
    · rw [if_pos hp, lookup_cons_eq_ite, ih]
      by_cases hk : k = e.1 <;> simp [hk, hp]
    · rw [if_neg hp, ih]
      by_cases hk : k = e.1 <;> simp [hk, hp]

theorem lookup_map (k : String) (f : α → β) (t : List (String × α)) :
    (t.map fun e => (e.1, f e.2)).lookup k = (t.lookup k).map f := by
  induction t with
  | nil => rfl
  | cons e t ih =>
    rw [List.map_cons, lookup_cons_eq_ite, lookup_cons_eq_ite, ih]
    split_ifs <;> rfl

theorem mem_of_lookup {k : String} {v : α} {t : List (String × α)} (h : t.lookup k = some v) :
    (k, v) ∈ t := by
  obtain ⟨before, after, rfl, -⟩ := List.lookup_eq_some_iff.1 h
  simp

theorem mem_keys_iff {k : String} {t : Table α} : k ∈ t.keys ↔ (t.get? k).isSome = true := by
  induction t with
  | nil => simp [keys, get?]
  | cons e t ih =>
    simp only [keys, get?, List.map_cons, List.mem_cons, lookup_cons_eq_ite] at ih ⊢
    by_cases hk : k = e.1 <;> simp [hk, ih]

theorem mem_keys_insert {k key : String} {v : α} {t : Table α} :
    k ∈ (insert key v t).keys ↔ k = key ∨ k ∈ t.keys := by
  rw [mem_keys_iff, mem_keys_iff, get?_insert]
  split_ifs with hk <;> simp [hk]

theorem mem_keys_ofList {k : String} {entries : List (String × α)} :
    k ∈ (ofList entries).keys ↔ k ∈ entries.map Prod.fst := by
  suffices h : ∀ t : Table α, k ∈ (entries.foldl (fun t (k, v) => insert k v t) t).keys ↔
      k ∈ t.keys ∨ k ∈ entries.map Prod.fst from (h []).trans (by simp [keys])
  induction entries with
  | nil => simp
  | cons e entries ih =>
    intro t
    rw [List.foldl_cons, ih, mem_keys_insert, List.map_cons, List.mem_cons, or_assoc, or_left_comm]

theorem lookup_reverse {t : List (String × α)} (h : (t.map Prod.fst).Nodup) (k : String) :
    t.reverse.lookup k = t.lookup k := by
  induction t with
  | nil => rfl
  | cons e t ih =>
    rw [List.map_cons, List.nodup_cons] at h
    rw [List.reverse_cons, List.lookup_append, ih h.2, lookup_cons_eq_ite, lookup_cons_eq_ite,
      List.lookup_nil]
    split_ifs with hk
    · cases hv : t.lookup k with
      | none => rfl
      | some v => exact absurd (hk ▸ List.mem_map_of_mem (mem_of_lookup hv)) h.1
    · exact Option.or_none

/-! ### The order of the keys -/

def Sorted (t : Table α) : Prop :=
  t.Pairwise fun a b => a.1 < b.1

instance (t : Table α) : Decidable t.Sorted :=
  inferInstanceAs (Decidable (t.Pairwise fun a b => a.1 < b.1))

theorem mem_insert {key : String} {v : α} {t : Table α} {e : String × α} (h : e ∈ insert key v t) :
    e = (key, v) ∨ e ∈ t := by
  induction t with
  | nil => simpa [insert] using h
  | cons p t ih =>
    rw [insert] at h
    split_ifs at h <;> grind

theorem mem_foldl_insert {entries : List (String × α)} {t : Table α} {e : String × α}
    (h : e ∈ entries.foldl (fun t (k, v) => insert k v t) t) : e ∈ entries ∨ e ∈ t := by
  induction entries generalizing t with
  | nil => exact .inr h
  | cons p entries ih =>
    rcases ih h with h | h
    · exact .inl (List.mem_cons_of_mem p h)
    · rcases mem_insert h with rfl | h
      · exact .inl List.mem_cons_self
      · exact .inr h

theorem Sorted.insert {t : Table α} (h : t.Sorted) (key : String) (v : α) :
    (insert key v t).Sorted := by
  induction t with
  | nil => exact List.pairwise_singleton _ _
  | cons p t ih =>
    obtain ⟨hp, ht⟩ := List.pairwise_cons.1 h
    rw [Table.insert]
    split_ifs with hlt heq
    · refine List.pairwise_cons.2 ⟨?_, h⟩
      intro e he
      rcases List.mem_cons.1 he with rfl | he
      · exact hlt
      · exact String.lt_trans hlt (hp e he)
    · subst heq
      exact List.pairwise_cons.2 ⟨hp, ht⟩
    · refine List.pairwise_cons.2 ⟨?_, ih ht⟩
      intro e he
      rcases mem_insert he with rfl | he
      · exact String.not_le.1 fun hle => heq (String.le_antisymm hle (String.not_lt.1 hlt))
      · exact hp e he

theorem sorted_foldl_insert (entries : List (String × α)) {t : Table α} (h : t.Sorted) :
    (entries.foldl (fun t (k, v) => insert k v t) t).Sorted := by
  induction entries generalizing t with
  | nil => exact h
  | cons e entries ih => exact ih (h.insert e.1 e.2)

theorem sorted_ofList (entries : List (String × α)) : (ofList entries).Sorted :=
  sorted_foldl_insert entries List.Pairwise.nil

theorem Sorted.filter {t : Table α} (h : t.Sorted) (p : String × α → Bool) :
    Sorted (t.filter p) :=
  h.sublist List.filter_sublist

theorem Sorted.nodup_keys {t : Table α} (h : t.Sorted) : (t.map Prod.fst).Nodup := by
  rw [List.Nodup, List.pairwise_map]
  refine h.imp ?_
  intro a b hlt heq
  exact String.lt_irrefl _ (heq ▸ hlt)

theorem Sorted.mem_iff {t : Table α} (h : t.Sorted) {e : String × α} :
    e ∈ t ↔ t.get? e.1 = some e.2 := by
  refine ⟨fun he => ?_, mem_of_lookup⟩
  induction t with
  | nil => exact absurd he List.not_mem_nil
  | cons p t ih =>
    obtain ⟨hp, ht⟩ := List.pairwise_cons.1 h
    rw [get?_cons]
    rcases List.mem_cons.1 he with rfl | he
    · exact if_pos rfl
    · have hne : e.1 ≠ p.1 := fun heq => String.lt_irrefl _ (heq ▸ hp e he)
      rw [if_neg hne]
      exact ih ht he

theorem get?_of_forall_lt {t : Table α} {key : String} (h : ∀ e ∈ t, key < e.1) :
    t.get? key = none := by
  rw [← Option.not_isSome_iff_eq_none, ← mem_keys_iff, keys, List.mem_map]
  rintro ⟨e, he, rfl⟩
  exact String.lt_irrefl _ (h e he)

theorem get?_eq_head? (k : String) (t : Table α) :
    t.get? k = (t.filter (some ·.1 == some k)).head?.map Prod.snd := by
  induction t with
  | nil => rfl
  | cons e t ih =>
    rw [get?_cons, List.filter_cons]
    by_cases hk : k = e.1
    · simp [hk]
    · simpa [hk, Ne.symm hk] using ih

/-- What entries give under a key is given by the entry of that key alone. -/
theorem Sorted.filter_filterMap {t : Table α} (h : t.Sorted) {f : String × α → Option β}
    {key : β → Option String} (hkey : ∀ e b, f e = some b → key b = some e.1) (k : String) :
    (t.filterMap f).filter (key · == some k) = ((t.get? k).bind fun v => f (k, v)).toList := by
  induction t with
  | nil => rfl
  | cons e t ih =>
    obtain ⟨he, ht⟩ := List.pairwise_cons.1 h
    have hrest := ih ht
    rw [get?_cons, List.filterMap_cons]
    by_cases hk : k = e.1
    · subst hk
      rw [get?_of_forall_lt he] at hrest
      cases hb : f e with
      | none => simpa [hb] using hrest
      | some b => simpa [hb, hkey e b hb] using hrest
    · cases hb : f e with
      | none => simpa [hk] using hrest
      | some b => simpa [hk, Ne.symm hk, hkey e b hb] using hrest

theorem Sorted.get?_filterMap {t : Table α} (h : t.Sorted) {f : String × α → Option (String × β)}
    (hkey : ∀ e p, f e = some p → p.1 = e.1) (k : String) :
    get? k (t.filterMap f) = (t.get? k).bind fun v => (f (k, v)).map Prod.snd := by
  rw [get?_eq_head?, h.filter_filterMap (fun e p hp => congrArg some (hkey e p hp))]
  cases t.get? k with
  | none => rfl
  | some v => cases hv : f (k, v) <;> simp [hv]

/-- How much a total over the values changes with the value of one key. -/
theorem Sorted.foldr_insert {t : Table α} (h : t.Sorted) (weight : α → Nat) (key : String) (v : α) :
    (Table.insert key v t).foldr (fun e n => weight e.2 + n) 0 + ((t.get? key).elim 0 weight) =
      t.foldr (fun e n => weight e.2 + n) 0 + weight v := by
  induction t with
  | nil => simp [Table.insert, get?]
  | cons p t ih =>
    obtain ⟨hp, ht⟩ := List.pairwise_cons.1 h
    rw [Table.insert, get?_cons]
    split_ifs with hlt heq heq
    · exact absurd (heq ▸ hlt) (String.lt_irrefl _)
    · rw [get?_of_forall_lt fun e he => String.lt_trans hlt (hp e he)]
      simp [Nat.add_comm]
    · simp only [List.foldr_cons, Option.elim_some]
      omega
    · have hrest := ih ht
      simp only [List.foldr_cons]
      omega

theorem Sorted.modify {t : Table α} (h : t.Sorted) (key : String) (init : α) (f : α → α) :
    (modify key init f t).Sorted :=
  h.insert key _

/-- A change that adds one to the weight of a value adds one to the total. -/
theorem Sorted.foldr_modify {t : Table α} (h : t.Sorted) (weight : α → Nat) {init : α}
    (hinit : weight init = 0) {f : α → α} (hf : ∀ v, weight (f v) = weight v + 1) (key : String) :
    (Table.modify key init f t).foldr (fun e n => weight e.2 + n) 0 =
      t.foldr (fun e n => weight e.2 + n) 0 + 1 := by
  have htotal := h.foldr_insert weight key (f ((t.get? key).getD init))
  have hweight : weight ((t.get? key).getD init) = (t.get? key).elim 0 weight := by
    cases t.get? key with
    | none => exact hinit
    | some v => rfl
  rw [hf, hweight] at htotal
  rw [Table.modify]
  omega

/-- A table is known by what is found in it. -/
theorem Sorted.ext {t u : Table α} (ht : t.Sorted) (hu : u.Sorted) (h : ∀ k, t.get? k = u.get? k) :
    t = u := by
  have hmem : ∀ e, e ∈ t ↔ e ∈ u := by
    intro e
    rw [ht.mem_iff, hu.mem_iff, h]
  have hne : ∀ {a b : String × α}, a.1 < b.1 → a ≠ b :=
    fun hab heq => String.lt_irrefl _ (heq ▸ hab)
  have hperm : t.Perm u := (List.perm_ext_iff_of_nodup (ht.imp hne) (hu.imp hne)).2 hmem
  refine hperm.eq_of_pairwise ?_ ht hu
  intro a b _ _ hab hba
  exact absurd hba (String.lt_asymm hab)

theorem insert_perm {t : Table α} {key : String} (h : key ∉ t.keys) (v : α) :
    (insert key v t).Perm ((key, v) :: t) := by
  induction t with
  | nil => exact .refl _
  | cons p t ih =>
    rw [keys, List.map_cons, List.mem_cons, not_or] at h
    rw [insert]
    split_ifs with hlt heq
    · exact .refl _
    · exact absurd heq h.1
    · exact ((ih h.2).cons p).trans (.swap (key, v) p t)

/-- Entries with different keys are all kept. -/
theorem ofList_perm {entries : List (String × α)} (h : (entries.map Prod.fst).Nodup) :
    (ofList entries).Perm entries := by
  suffices hfold : ∀ t : Table α, ((entries ++ t).map Prod.fst).Nodup →
      (entries.foldl (fun t (k, v) => insert k v t) t).Perm (entries ++ t) by
    rw [← List.append_nil entries] at h
    exact (hfold [] h).trans (.of_eq (List.append_nil entries))
  clear h
  induction entries with
  | nil => exact fun t _ => .refl t
  | cons e entries ih =>
    intro t hnodup
    have hmiddle : (entries ++ e :: t).Perm (e :: entries ++ t) := List.perm_middle
    have hnew : e.1 ∉ t.keys := by
      intro hmem
      rw [List.cons_append, List.map_cons, List.nodup_cons, List.map_append] at hnodup
      exact hnodup.1 (List.mem_append_right _ hmem)
    have hinsert : (entries ++ insert e.1 e.2 t).Perm (e :: entries ++ t) :=
      ((insert_perm hnew e.2).append_left entries).trans hmiddle
    exact (ih _ ((hinsert.map Prod.fst).nodup_iff.2 hnodup)).trans hinsert

theorem insert_of_forall_lt {t : Table α} {key : String} (h : ∀ e ∈ t, e.1 < key) (v : α) :
    insert key v t = t ++ [(key, v)] := by
  induction t with
  | nil => rfl
  | cons p t ih =>
    have hp := h p (by simp)
    have hlt : ¬ key < p.1 := fun hkey => String.lt_irrefl _ (String.lt_trans hp hkey)
    have hne : key ≠ p.1 := fun hkey => String.lt_irrefl _ (hkey ▸ hp)
    rw [insert, if_neg hlt, if_neg hne, ih fun e he => h e (List.mem_cons_of_mem p he),
      List.cons_append]

theorem Sorted.ofList_eq {t : Table α} (h : t.Sorted) : ofList t = t := by
  have happend : ∀ (t s : Table α), (s ++ t).Sorted →
      t.foldl (fun t (k, v) => Table.insert k v t) s = s ++ t := by
    intro t
    induction t with
    | nil => simp
    | cons e t ih =>
      intro s hs
      have hbelow : ∀ p ∈ s, p.1 < e.1 := fun p hp => (List.pairwise_append.1 hs).2.2 p hp e
        (by simp)
      have hnext : (s ++ [e] ++ t).Sorted := by rwa [List.append_assoc, List.singleton_append]
      calc (e :: t).foldl (fun t (k, v) => Table.insert k v t) s
          = t.foldl (fun t (k, v) => Table.insert k v t) (Table.insert e.1 e.2 s) := rfl
        _ = t.foldl (fun t (k, v) => Table.insert k v t) (s ++ [e]) := by
            rw [insert_of_forall_lt hbelow e.2]
        _ = s ++ [e] ++ t := ih _ hnext
        _ = s ++ e :: t := by rw [List.append_assoc, List.singleton_append]
  exact happend t [] h

end CodeSurvey.Table

namespace CodeSurvey

/-! ### Sets of strings -/

theorem mem_sortedSet {x : String} {xs : List String} : x ∈ sortedSet xs ↔ x ∈ xs := by
  rw [sortedSet, Table.mem_keys_ofList, List.map_map]
  simp

theorem pairwise_sortedSet (xs : List String) : (sortedSet xs).Pairwise (· < ·) :=
  List.pairwise_map.2 (Table.sorted_ofList _)

end CodeSurvey
