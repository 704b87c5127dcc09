/-!
# Tables

A table lists its entries in ascending order of their keys, each key once.
-/
namespace CodeSurvey

abbrev Table (α : Type) := List (String × α)

namespace Table

variable {α : Type}

/-- Sets the value of a key. -/
def insert (key : String) (value : α) : Table α → Table α
  | [] => [(key, value)]
  | (k, v) :: rest =>
    if key < k then (key, value) :: (k, v) :: rest
    else if key = k then (key, value) :: rest
    else (k, v) :: insert key value rest

def get? (key : String) (t : Table α) : Option α :=
  t.lookup key

def keys (t : Table α) : List String :=
  t.map Prod.fst

/-- The table of a list of entries, where a later entry replaces an earlier one. -/
def ofList (entries : List (String × α)) : Table α :=
  entries.foldl (fun t (k, v) => insert k v t) []

/-- Changes the value of a key; a key without a value starts from `init`. -/
def modify (key : String) (init : α) (f : α → α) (t : Table α) : Table α :=
  insert key (f ((get? key t).getD init)) t

end Table

/-- The strings in ascending order, each once. -/
def sortedSet (xs : List String) : List String :=
  Table.keys (Table.ofList (xs.map fun x => (x, ())))

end CodeSurvey
