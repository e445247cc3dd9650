import EntityStore.Schema.Basic
import EntityStore.Query.Selection

/-! Sync records: the entries of an operation log that another store has written, with their JSON
form. A record is tagged by its `action`, a field of the object or the first item of the array. -/

namespace EntityStore

/-- One entry of a replayed operation log. -/
inductive SyncRecord where
  /-- Rows to create: one row or an array of rows. -/
  | create (entity : String) (data : Json)
  | update (entity : String) (data : Json) (filter : Option Json)
  | remove (entity : String) (filter : Option Json)
  /-- Rows as the other store saw them, by entity and id. -/
  | snapshot (rows : NameMap (NameMap Row))

namespace SyncRecord

/-- An object as a map, each value decoded. -/
def mapOf? {β : Type} (decode : Json → Option β) : Json → Option (NameMap β)
  | .obj fields => do
    let entries ← fields.mapM fun (name, v) => (decode v).map (name, ·)
    return Std.ExtTreeMap.ofList entries compare
  | _ => none

/-- The tag of a record and its other parts. -/
def tagged? : Json → Option (String × Json)
  | .obj fields => do
    let tag ← (← Fields.get? fields "action").str?
    return (tag, .obj (fields.filter fun entry => entry.1 ≠ "action"))
  | .arr (tag :: items) => do return (← tag.str?, .arr items)
  | _ => none

/-- A filter that may be left out. -/
def filter? (fields : Fields Json) : Option (Option Json) :=
  fields.optional? "filter" none (Json.nullable? some)

/-- The record that a value gives. -/
def ofJson? (j : Json) : Option SyncRecord := do
  let (tag, body) ← tagged? j
  if tag = "create" then
    let fields ← body.record? ["entity", "data"]
    return create (← fields.required? "entity" Json.str?) (← fields.required? "data" some)
  else if tag = "update" then
    let fields ← body.record? ["entity", "data", "filter"]
    return update (← fields.required? "entity" Json.str?) (← fields.required? "data" some)
      (← filter? fields)
  else if tag = "remove" then
    let fields ← body.record? ["entity", "filter"]
    return remove (← fields.required? "entity" Json.str?) (← filter? fields)
  else if tag = "select" then
    let fields ← body.record? ["data"]
    return snapshot (← fields.required? "data" (mapOf? (mapOf? Json.obj?)))
  else none

/-- The records that an array gives. -/
def listOfJson? : Json → Option (List SyncRecord)
  | .arr items => items.mapM ofJson?
  | _ => none

/-- A filter, or `null` if there is none. -/
def filterToJson (filter : Option Json) : Json := filter.getD .null

/-- A record with all its fields. -/
def toJson : SyncRecord → Json
  | create entity data =>
    .obj [("action", .str "create"), ("entity", .str entity), ("data", data)]
  | update entity data filter =>
    .obj [("action", .str "update"), ("entity", .str entity), ("data", data),
      ("filter", filterToJson filter)]
  | remove entity filter =>
    .obj [("action", .str "remove"), ("entity", .str entity), ("filter", filterToJson filter)]
  | snapshot rows =>
    let table (t : NameMap Row) : Json := .obj (t.toList.map fun (id, row) => (id, .obj row))
    .obj [("action", .str "select"),
      ("data", .obj (rows.toList.map fun (entity, t) => (entity, table t)))]

end SyncRecord

end EntityStore
