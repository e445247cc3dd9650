import EntityStore.Json.Document

/-! Records in JSON. A record is an object that has the fields under their names, or an array of the
fields in the order of their declaration, from which trailing ones may be left out. In an object a
repeated field is refused and unknown fields are ignored. -/

namespace EntityStore

namespace Record

variable {α : Type}

/-- The declared fields of an object, unless one of them is repeated. -/
def ofObject? (names : List String) (entries : List (String × α)) : Option (Fields α) :=
  let known := entries.filter fun entry => entry.1 ∈ names
  if (known.map (·.1)).Nodup then some known else none

/-- The items of an array under the names of the fields, unless there are too many. -/
def ofArray? (names : List String) (items : List α) : Option (Fields α) :=
  if items.length ≤ names.length then some (names.zip items) else none

end Record

/-- The declared fields of a record. -/
def Json.record? (names : List String) : Json → Option (Fields Json)
  | .obj entries => Record.ofObject? names entries
  | .arr items => Record.ofArray? names items
  | _ => none

namespace Document

/-- The fields of an object whose names all have a value. -/
def entries? (fields : List (Option String × Document)) : Option (List (String × Document)) :=
  fields.mapM fun (name, v) => name.map (·, v)

/-- The declared fields of a record. -/
def record? (names : List String) : Document → Option (Fields Document)
  | .object fields => do Record.ofObject? names (← entries? fields)
  | .array items => Record.ofArray? names items
  | _ => none

/-- The truth value of a document. -/
def bool? : Document → Option Bool
  | .bool value => some value
  | _ => none

/-- The text of a string. -/
def str? : Document → Option String
  | .string text => text
  | _ => none

/-- The items of an array, each one decoded. -/
def listOf? {β : Type} (decode : Document → Option β) : Document → Option (List β)
  | .array items => items.mapM decode
  | _ => none

end Document

/-- A field that has to be there, decoded. -/
def Fields.required? {α β : Type} (fields : Fields α) (name : String) (decode : α → Option β) :
    Option β :=
  (get? fields name).bind decode

/-- A field that may be left out, decoded. -/
def Fields.optional? {α β : Type} (fields : Fields α) (name : String) (missing : β)
    (decode : α → Option β) : Option β :=
  match get? fields name with
  | some v => decode v
  | none => some missing

end EntityStore
