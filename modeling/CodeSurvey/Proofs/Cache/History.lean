import CodeSurvey.Cache.Store
import CodeSurvey.Proofs.Search
import CodeSurvey.Proofs.Table
import Mathlib.Data.List.Induction

/-!
# Histories of a store

A store is changed by writing the extraction of a file and by dropping the files that are gone. What
it knows of a file after any run of such operations is what the last one left that touched the file,
and what it knew at first if none did.
-/
namespace CodeSurvey.Cache

/-- A change of a store. -/
inductive Operation where
  | write (now path hash : String) (patternVersion : Nat) (x : Extraction)
  | prune (live : String → Bool)

namespace Operation

def run (s : Store) : Operation → Store
  | .write now path hash patternVersion x => s.insert now path hash patternVersion x
  | .prune live => (s.prune live).1

def runAll (s : Store) (ops : List Operation) : Store :=
  ops.foldl run s

/-- Whether the operation writes or drops the entry of a path. -/
def touches (path : String) : Operation → Bool
  | .write _ written _ _ _ => written == path
  | .prune live => !live path

/-- What the operation leaves where it touches a path. -/
def entry? : Operation → Option Entry
  | .write now _ hash patternVersion x => some ⟨hash, .blake3, some patternVersion, now, x⟩
  | .prune _ => none

variable {s : Store} {op : Operation} {ops : List Operation} {path : String}

theorem get?_run (s : Store) (op : Operation) (path : String) :
    (op.run s).get? path = if op.touches path then op.entry? else s.get? path := by
  cases op with
  | write now written hash patternVersion x =>
    have htouches : touches path (.write now written hash patternVersion x) = true ↔
        path = written := by
      rw [touches, beq_iff_eq, eq_comm]
    simp only [htouches, run, entry?]
    exact Table.get?_insert path written _ s.entries
  | prune live =>
    have htouches : touches path (.prune live) = true ↔ ¬live path = true := by
      rw [touches, Bool.not_eq_true', Bool.not_eq_true]
    simp only [htouches, ite_not, run, entry?]
    exact Table.lookup_filter path live s.entries

theorem runAll_append (s : Store) (ops : List Operation) (op : Operation) :
    runAll s (ops ++ [op]) = op.run (runAll s ops) := by
  rw [runAll, List.foldl_append]
  rfl

/-- The last operation that touched a path tells its entry. -/
theorem get?_runAll (s : Store) (ops : List Operation) (path : String) :
    (runAll s ops).get? path =
      ((ops.filter (touches path)).getLast?.map entry?).getD (s.get? path) := by
  induction ops using List.reverseRecOn with
  | nil => rfl
  | append_singleton ops op ih =>
    rw [runAll_append, get?_run, ih, List.filter_append]
    by_cases htouches : op.touches path = true
    · rw [if_pos htouches, List.filter_cons_of_pos htouches, List.filter_nil, List.getLast?_concat]
      rfl
    · rw [if_neg htouches, List.filter_cons_of_neg htouches, List.filter_nil, List.append_nil]

/-- The entry that a path has after a run: the one that was written last, if nothing has touched the
path since, or the one at the start, if nothing has touched it at all. -/
inductive Survives (s : Store) (ops : List Operation) (path : String) : Entry → Prop
  | written {now hash : String} {patternVersion : Nat} {x : Extraction}
      (h : LastWith (fun op => op.touches path = true) ops
        (.write now path hash patternVersion x)) :
      Survives s ops path ⟨hash, .blake3, some patternVersion, now, x⟩
  | initial {e : Entry} (h : s.get? path = some e)
      (huntouched : ∀ op ∈ ops, ¬op.touches path = true) :
      Survives s ops path e

theorem get?_runAll_eq_some_iff {e : Entry} :
    (runAll s ops).get? path = some e ↔ Survives s ops path e := by
  rw [get?_runAll]
  constructor
  · intro h
    cases hlast : (ops.filter (touches path)).getLast? with
    | none =>
      rw [hlast] at h
      rw [List.getLast?_eq_none_iff, List.filter_eq_nil_iff] at hlast
      exact .initial h hlast
    | some op =>
      rw [hlast] at h
      have hwith := (getLast?_filter_eq_some_iff fun _ => Iff.rfl).1 hlast
      cases op with
      | prune live => cases h
      | write now written hash patternVersion x =>
        obtain ⟨-, -, -, htouches, -⟩ := id hwith
        obtain rfl : written = path := beq_iff_eq.1 htouches
        obtain rfl := Option.some.inj h
        exact .written hwith
  · intro h
    cases h with
    | written h =>
      rw [(getLast?_filter_eq_some_iff fun _ => Iff.rfl).2 h]
      rfl
    | initial h huntouched =>
      rw [List.filter_eq_nil_iff.2 huntouched]
      exact h

end Operation

/-- The entry was made with these patterns, or with unknown ones, from what the fingerprint
shows. -/
structure Entry.Matches (e : Entry) (f : Fingerprint) : Prop where
  version : e.patternVersion = none ∨ e.patternVersion = some f.patternVersion
  digest : e.hashKind = .blake3 ∧ e.contentHash = f.hash ∨
    e.hashKind = .legacySha256 ∧ e.contentHash = legacyContentHash f.text

theorem Entry.isCurrent_iff {e : Entry} {f : Fingerprint} : e.isCurrent f = true ↔ e.Matches f := by
  have hversion : e.patternVersion.all (· == f.patternVersion) = true ↔
      e.patternVersion = none ∨ e.patternVersion = some f.patternVersion := by
    cases e.patternVersion <;> simp
  have hdigest : e.hashMatches f = true ↔ e.hashKind = .blake3 ∧ e.contentHash = f.hash ∨
      e.hashKind = .legacySha256 ∧ e.contentHash = legacyContentHash f.text := by
    rw [hashMatches]
    cases e.hashKind <;> simp
  rw [isCurrent, Bool.and_eq_true, hversion, hdigest]
  exact ⟨fun h => ⟨h.1, h.2⟩, fun h => ⟨h.version, h.digest⟩⟩

namespace Store

theorem lookup?_eq_some_iff {s : Store} {path : String} {f : Fingerprint} {x : Extraction} :
    s.lookup? path f = some x ↔ ∃ e, s.get? path = some e ∧ e.Matches f ∧ e.extraction = x := by
  simp only [lookup?, Option.map_eq_some_iff, Option.filter_eq_some_iff, Entry.isCurrent_iff,
    and_assoc]

/-- The paths whose entries are dropped. -/
def dropped (s : Store) (live : String → Bool) : List String :=
  s.entries.keys.filter fun path => ((s.prune live).1.get? path).isNone

theorem dropped_eq (s : Store) (live : String → Bool) :
    s.dropped live = s.entries.keys.filter fun path => !live path := by
  refine List.filter_congr ?_
  intro path hpath
  have hget := Operation.get?_run s (.prune live) path
  rw [Operation.run] at hget
  have hsome : (s.get? path).isSome = true := Table.mem_keys_iff.1 hpath
  rw [hget, Operation.touches, Operation.entry?]
  cases live path with
  | false => rfl
  | true => simpa using hsome

theorem prune_count (s : Store) (live : String → Bool) :
    (s.prune live).2 = (s.dropped live).length := by
  have hkeys : (s.dropped live).length = (s.entries.filter fun e => !live e.1).length := by
    rw [dropped_eq, Table.keys, List.filter_map, List.length_map]
    rfl
  have hsplit := List.length_eq_length_filter_add (l := s.entries) fun e => live e.1
  rw [hkeys, prune, size, size, retain]
  dsimp only
  omega

/-- After any run of operations on any store, a lookup finds what the surviving entry of the path
carries, just if it matches. Only the operations that touch the path count, and pruning tells how
many entries it drops. -/
theorem lookup?_runAll (s : Store) (ops : List Operation) (path : String) (f : Fingerprint) :
    (∀ x, (Operation.runAll s ops).lookup? path f = some x ↔
        ∃ e, Operation.Survives s ops path e ∧ e.Matches f ∧ e.extraction = x) ∧
      (Operation.runAll s (ops.filter (·.touches path))).lookup? path f =
        (Operation.runAll s ops).lookup? path f ∧
      ∀ live, ((Operation.runAll s ops).prune live).2 =
        ((Operation.runAll s ops).dropped live).length := by
  refine ⟨?_, ?_, prune_count _⟩
  · intro x
    simp only [lookup?_eq_some_iff, Operation.get?_runAll_eq_some_iff]
  · rw [lookup?, lookup?, Operation.get?_runAll, Operation.get?_runAll, List.filter_filter]
    simp only [Bool.and_self]

end Store

end CodeSurvey.Cache
