import EntityStore.Query.Selection

/-! Operations: the mutations of the rows of one entity, and their JSON form. -/

namespace EntityStore

/-- What a mutation does. -/
inductive Action where
  | create
  | update
  | remove
  /-- An action with a name of its own, which changes rows as `update` does. -/
  | custom (name : String)
deriving DecidableEq

namespace Action

/-- The name of an action. -/
def name : Action → String
  | create => "create"
  | update => "update"
  | remove => "remove"
  | custom name => name

/-- The action with a name; every name is one. -/
def ofName (name : String) : Action :=
  if name = "create" then create
  else if name = "update" then update
  else if name = "remove" then remove
  else custom name

/-- The action that a value gives. -/
def ofJson? (j : Json) : Option Action := j.str?.map ofName

/-- An action as its name. -/
def toJson (a : Action) : Json := .str a.name

end Action

/-- A mutation of the rows of one entity. -/
structure Operation where
  action : Action
  /-- The row or the rows to create, or the patch to merge. -/
  data : Json := .null
  /-- The rows that an update or a remove applies to. -/
  filter : Option Json := none
deriving DecidableEq

namespace Operation

/-- Creates a row, or an array of rows. -/
def create (data : Json) : Operation := { action := .create, data }

/-- Merges a patch into the rows that pass a filter. -/
def update (patch filter : Json) : Operation :=
  { action := .update, data := patch, filter := some filter }

/-- Removes the rows that pass a filter. -/
def remove (filter : Json) : Operation := { action := .remove, filter := some filter }

/-- Merges a patch into the rows that pass a filter, under the name of another action. -/
def custom (name : String) (patch filter : Json) : Operation :=
  { action := .ofName name, data := patch, filter := some filter }

/-- The names of the fields. -/
def fieldNames : List String := ["action", "data", "filter"]

/-- The operation that a value gives. -/
def ofJson? (j : Json) : Option Operation := do
  let fields ← j.record? fieldNames
  return {
    action := ← fields.required? "action" Action.ofJson?
    data := ← fields.optional? "data" .null some
    filter := ← fields.optional? "filter" none (Json.nullable? some) }

/-- An operation, with its filter if it has one. -/
def toJson (o : Operation) : Json :=
  .obj ([("action", o.action.toJson), ("data", o.data)] ++
    Selection.optionalField "filter" o.filter)

end Operation

end EntityStore
