import EntityStore.Query.Bindings
import EntityStore.Json.Record
import EntityStore.Config

/-! Selections: a read of one entity with projection, filter, sorter and page, and its JSON form. -/

namespace EntityStore

/-- A count written as a whole number that is not negative. -/
def Json.nat? : Json → Option Nat
  | .num (.int n) => if 0 ≤ n then some n.toNat else none
  | _ => none

/-- A value that may be `null`. -/
def Json.nullable? {β : Type} (decode : Json → Option β) : Json → Option (Option β)
  | .null => some none
  | v => (decode v).map some

/-- A read of one entity. -/
structure Selection where
  /-- The projection. -/
  data : Fields Json := []
  filter : Option Json := none
  sorter : Option Json := none
  /-- Where the page begins; a page is cut only if there is a count. -/
  indexFrom : Option Nat := none
  count : Option Nat := none
deriving DecidableEq

/-- How a selection is carried out. -/
structure SelectOption where
  /-- A missing value cannot disprove a filter. -/
  obscure : Bool := false
  /-- The labels that every row starts with. -/
  bindings : Bindings := {}
deriving DecidableEq

namespace Selection

/-- The names of the fields. -/
def fieldNames : List String := ["data", "filter", "sorter", "indexFrom", "count"]

/-- The selection that a value gives. -/
def ofJson? (j : Json) : Option Selection := do
  let fields ← j.record? fieldNames
  return {
    data := ← fields.optional? "data" [] Json.obj?
    filter := ← fields.optional? "filter" none (Json.nullable? some)
    sorter := ← fields.optional? "sorter" none (Json.nullable? some)
    indexFrom := ← fields.optional? "indexFrom" none (Json.nullable? Json.nat?)
    count := ← fields.optional? "count" none (Json.nullable? Json.nat?) }

/-- The selection that a value gives, or the error that it is none. -/
def decode (j : Json) : Except QueryError Selection :=
  match ofJson? j with
  | some s => .ok s
  | none => .error (.invalid .selection)

/-- A field that is written only if it has a value. -/
def optionalField (name : String) : Option Json → List (String × Json)
  | some v => [(name, v)]
  | none => []

/-- A selection with the fields that it has. -/
def toJson (s : Selection) : Json :=
  .obj ([("data", .obj s.data)] ++ optionalField "filter" s.filter ++
    optionalField "sorter" s.sorter ++ optionalField "indexFrom" (s.indexFrom.map .ofNat) ++
    optionalField "count" (s.count.map .ofNat))

/-- The selection with a projection; one that is no object projects nothing. -/
def ofData (data : Json) : Selection := { data := data.obj?.getD [] }

/-- The rows of a page: `count` rows from `indexFrom` on, or all of them without a count. -/
def page (s : Selection) (rows : List Row) : List Row :=
  match s.count with
  | some count => (rows.drop (s.indexFrom.getD 0)).take count
  | none => rows

end Selection

namespace SelectOption

/-- The defaults of a configuration. -/
def ofConfig (c : Config) : SelectOption := { obscure := c.defaultObscure }

end SelectOption

end EntityStore
