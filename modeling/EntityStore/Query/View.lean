import EntityStore.Row.Key
import EntityStore.Schema.Relation
import EntityStore.Log.Event

/-! A view: the schema and the rows that a query can see. A query reads rows through a view only, so
two stores with the same view answer every query alike. -/

namespace EntityStore

/-- What a query can see. -/
structure View where
  schema : Schema
  /-- The visible rows. -/
  rows : RowMap Row
  /-- Whether a subquery that reads no outer label runs once for all rows. -/
  eagerSubqueries : Bool := true
  /-- The least severity of the entries that selects log. -/
  logSeverity : Severity := .warn

/-- Where a pointer leads. -/
inductive Destination where
  /-- The columns of the pointer hold no id. -/
  | unset
  /-- A polymorphic pointer to another entity. -/
  | elsewhere
  /-- The row is not visible. -/
  | missing
  | found (row : Row)

namespace View

/-- The visible row of an entity with an id. -/
def row? (v : View) (entity id : String) : Option Row := v.rows[RowKey.mk entity id]?

/-- The visible rows of an entity in the order of their ids. -/
def scan (v : View) (entity : String) : List Row := (v.rows.ofEntity entity).map (·.2)

/-- Looks up the row that an id value names. -/
def lookUp (v : View) (target : String) (id : Option Json) : Destination :=
  match id.bind Json.str? with
  | none => .unset
  | some id =>
    match v.row? target id with
    | some row => .found row
    | none => .missing

/-- Follows a pointer from a row. -/
def follow (v : View) (pointer : Pointer) (row : Row) : Destination :=
  match pointer with
  | .polymorphic target =>
    match (Fields.get? row entityColumn).bind Json.str? with
    | none => .unset
    | some entity =>
      if entity = target then v.lookUp target (Fields.get? row entityIdColumn) else .elsewhere
  | .foreignKey target column => v.lookUp target (Fields.get? row column)

end View

end EntityStore
