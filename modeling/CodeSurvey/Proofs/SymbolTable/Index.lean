import CodeSurvey.Proofs.SymbolTable
import Mathlib.Algebra.BigOperators.Group.List.Lemmas
import Mathlib.Algebra.GroupWithZero.Nat

/-!
# Agreement of the two indexes

Functions are added one at a time or file by file, in any order. Whatever the calls, both indexes
are cut from one list, that of all additions in order: the one keeps what was added for a file, the
other what was added under a simple name. So each of them can be read off from the other one, and
their sizes agree.
-/
namespace CodeSurvey.SymbolTable

/-- A call that adds to a table. -/
inductive Addition where
  | one (file : String) (d : Declaration)
  | all (file : String) (ds : List Declaration)

namespace Addition

def run (t : SymbolTable) : Addition → SymbolTable
  | .one file d => t.add file d
  | .all file ds => t.addFile file ds

/-- The functions that a call adds, each with its file. -/
def functions : Addition → List (String × Declaration)
  | .one file d => [(file, d)]
  | .all file ds => ds.map (file, ·)

theorem run_eq_foldl (t : SymbolTable) (a : Addition) :
    a.run t = a.functions.foldl (fun t p => t.add p.1 p.2) t := by
  cases a with
  | one file d => rfl
  | all file ds => rw [functions, List.foldl_map, run, addFile]

end Addition

/-- The table that calls build. -/
def ofAdditions (additions : List Addition) : SymbolTable :=
  additions.foldl Addition.run .empty

/-- All that calls add, in order. -/
def added (additions : List Addition) : List Definition :=
  (additions.flatMap Addition.functions).map fun p => Definition.ofDeclaration p.1 p.2

theorem ofAdditions_eq_foldl (additions : List Addition) :
    ofAdditions additions = (additions.flatMap Addition.functions).foldl
      (fun t p => t.add p.1 p.2) .empty := by
  rw [ofAdditions, List.foldl_flatMap]
  congr 1
  funext t a
  exact a.run_eq_foldl t

section

variable (additions : List Addition) (file name : String)

theorem inFile_ofAdditions :
    (ofAdditions additions).inFile file = (added additions).filter (·.file = file) := by
  rw [ofAdditions_eq_foldl, inFile_foldl_add, added, List.filter_map]
  rfl

theorem lookup_ofAdditions :
    (ofAdditions additions).lookup name = (added additions).filter (·.simpleName = name) := by
  rw [ofAdditions_eq_foldl, lookup_foldl_add, added, List.filter_map]
  rfl

theorem size_ofAdditions : (ofAdditions additions).size = (added additions).length := by
  have hsorted : empty.byFile.Sorted := List.Pairwise.nil
  rw [ofAdditions_eq_foldl, size_foldl_add _ hsorted, added, List.length_map]
  exact Nat.zero_add _

/-- The entries of the global index are as many as the additions. -/
theorem sum_length_lookup :
    ((((added additions).map Definition.simpleName).dedup).map fun name =>
        ((ofAdditions additions).lookup name).length).sum = (added additions).length := by
  have hcount : ∀ name, ((ofAdditions additions).lookup name).length =
      ((added additions).map Definition.simpleName).count name := by
    intro name
    rw [lookup_ofAdditions, List.count, List.countP_map, List.countP_eq_length_filter]
    congr 2
  simp only [hcount]
  rw [List.sum_map_count_dedup_eq_length, List.length_map]

end

/-- After any calls the two indexes tell the same. What one finds under a name in a file is what the
other finds under the name, cut down to the file; a file has what was added for it, in order; and
the size counts every addition, as do the entries under all names. -/
theorem indexes_agree (additions : List Addition) :
    let t := ofAdditions additions
    (∀ file name, t.lookupInFile file name = (t.lookup name).filter (·.file = file)) ∧
      (∀ file, t.inFile file = (added additions).filter (·.file = file)) ∧
      (∀ name, t.lookup name = (added additions).filter (·.simpleName = name)) ∧
      t.size = (added additions).length ∧
      t.size = (((added additions).map Definition.simpleName).dedup.map fun name =>
        (t.lookup name).length).sum := by
  intro t
  refine ⟨?_, inFile_ofAdditions additions, lookup_ofAdditions additions,
    size_ofAdditions additions, ?_⟩
  · intro file name
    rw [lookupInFile, inFile_ofAdditions, lookup_ofAdditions, List.filter_comm]
    rfl
  · rw [sum_length_lookup]
    exact size_ofAdditions additions

end CodeSurvey.SymbolTable
