import EntityStore.Schema.Basic
import EntityStore.Json.Record

/-! Schemas as JSON: what a schema document may look like, and the form in which a schema is
written. Entities and attributes are written in the order of their names, with every field. -/

namespace EntityStore

namespace NameMap

variable {β : Type}

/-- A map written as an object; the last value of a repeated name counts. -/
def ofDocument? (decode : Document → Option β) : Document → Option (NameMap β)
  | .object fields => do
    let entries ← Document.entries? fields
    let decoded ← entries.mapM fun (name, v) => (decode v).map (name, ·)
    return Std.ExtTreeMap.ofList decoded compare
  | _ => none

/-- A map as an object. -/
def toJson (encode : β → Json) (m : NameMap β) : Json :=
  .obj (m.toList.map fun (name, v) => (name, encode v))

end NameMap

namespace AttributeType

/-- The type that is written alone, without targets, by its name. -/
def ofName? (name : String) : Option AttributeType :=
  [string, int, float, bool, object, array].find? (·.name = name)

/-- The name of a type in a definition; a number stands for the place of a type among them all. -/
def nameOf? : Document → Option String
  | .string text => text
  | .number (some (.int n)) =>
    if 0 ≤ n then
      ["string", "int", "float", "bool", "object", "array", "ref", "entity"][n.toNat]?
    else none
  | _ => none

/-- The type that a definition gives: `type`, with `target` for a reference and `targets` for a
polymorphic pointer. Each of them may be there once where it is read. -/
def ofEntries? (entries : List (String × Document)) : Option AttributeType := do
  let only (name : String) : Option Document :=
    match entries.filter (·.1 = name) with
    | [(_, v)] => some v
    | _ => none
  let name ← nameOf? (← only "type")
  if name = "ref" then return .ref (← (← only "target").str?)
  else if name = "entity" then return .entity (← (← only "targets").listOf? Document.str?)
  else ofName? name

end AttributeType

namespace Attribute

/-- How many arrays and objects enclose the parts of an attribute definition in a schema. -/
def definitionDepth : Nat := 5

/-- The attribute that an object defines. The fields beside `required` all have to have values. -/
def ofDocument? : Document → Option Attribute
  | .object fields => do
    let entries ← Document.entries? fields
    let required ← match entries.filter (·.1 = "required") with
      | [] => some false
      | [(_, v)] => v.bool?
      | _ => none
    let others := entries.filter (·.1 ≠ "required")
    guard (others.all fun (_, v) =>
      v.toJson?.isSome && v.depth + definitionDepth ≤ Document.depthLimit)
    return { type := ← AttributeType.ofEntries? others, required }
  | _ => none

/-- The definition of an attribute. -/
def toJson (a : Attribute) : Json :=
  let targets : List (String × Json) := match a.type with
    | .ref target => [("target", .str target)]
    | .entity targets => [("targets", .arr (targets.map .str))]
    | _ => []
  .obj ([("type", .str a.type.name)] ++ targets ++ [("required", .bool a.required)])

end Attribute

namespace Index

/-- The index that a record defines. -/
def ofDocument? (d : Document) : Option Index := do
  let fields ← d.record? ["name", "attributes", "fulltext"]
  return {
    name := ← fields.required? "name" Document.str?
    attributes := ← fields.required? "attributes" (Document.listOf? Document.str?)
    fulltext := ← fields.optional? "fulltext" false Document.bool? }

/-- The definition of an index. -/
def toJson (i : Index) : Json :=
  .obj [("name", .str i.name), ("attributes", .arr (i.attributes.map .str)),
    ("fulltext", .bool i.fulltext)]

end Index

namespace Entity

/-- The entity that a record defines. -/
def ofDocument? (d : Document) : Option Entity := do
  let fields ← d.record? ["attributes", "indexes"]
  return {
    attributes := ← fields.optional? "attributes" ∅ (NameMap.ofDocument? Attribute.ofDocument?)
    indexes := ← fields.optional? "indexes" [] (Document.listOf? Index.ofDocument?) }

/-- The definition of an entity. -/
def toJson (e : Entity) : Json :=
  .obj [("attributes", e.attributes.toJson Attribute.toJson),
    ("indexes", .arr (e.indexes.map Index.toJson))]

end Entity

namespace Schema

/-- The schema that a record defines, unchecked. -/
def ofDocument? (d : Document) : Option Schema := do
  let fields ← d.record? ["entities"]
  return { entities := ← fields.required? "entities" (NameMap.ofDocument? Entity.ofDocument?) }

/-- The schema that a value defines, unchecked. -/
def ofJson? (j : Json) : Option Schema := ofDocument? (.ofJson j)

/-- The definition of a schema. -/
def toJson (s : Schema) : Json := .obj [("entities", s.entities.toJson Entity.toJson)]

/-- The place of a schema that was not read from a file. -/
def inMemory : String := "<in-memory>"

/-- Reads and checks a schema document that comes from `location`. -/
def load (location text : String) : Except SchemaError Schema :=
  match (Document.read? text).bind ofDocument? with
  | some s => s.register location
  | none => .error (.malformed location .notSchema)

/-- Reads and checks a schema file; there is no text if the file cannot be read. -/
def loadFile (location : String) : Option String → Except SchemaError Schema
  | some text => load location text
  | none => .error (.malformed location .unreadable)

end Schema

end EntityStore
