import CodeSurvey.Json.Basic

/-!
# Records in JSON

A record is written as an object with a member for each field, or as an array with the fields in
their order. Members that are no fields are skipped; a field may not be repeated.
-/
namespace CodeSurvey.Json

/-- The fields that a document gives. -/
def fields? (names : List String) : Json → Option (List (String × Json))
  | .obj members =>
    let known := members.filter fun m => names.contains m.1
    if (known.map Prod.fst).Nodup then some known else none
  | .arr items => if items.length ≤ names.length then some (names.zip items) else none
  | _ => none

def required {α : Type} (fields : List (String × Json)) (name : String) (read : Json → Option α) :
    Option α :=
  (fields.lookup name).bind read

/-- A field that may be left out. -/
def defaulted {α : Type} (fields : List (String × Json)) (name : String) (value : α)
    (read : Json → Option α) : Option α :=
  match fields.lookup name with
  | some j => read j
  | none => some value

/-- One of a closed set of labels: the text itself, or an object with that member and no value. -/
def labelled? {α : Type} (ofLabel : String → Option α) : Json → Option α
  | .str s => ofLabel s
  | .obj [(s, .null)] => ofLabel s
  | _ => none

/-- A label where an empty object counts as no value, too. -/
def looselyLabelled? {α : Type} (ofLabel : String → Option α) : Json → Option α
  | .obj [(s, .obj [])] => ofLabel s
  | j => labelled? ofLabel j

end CodeSurvey.Json
