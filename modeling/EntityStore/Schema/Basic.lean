import Std.Data.ExtTreeMap
import EntityStore.Schema.Error

/-! Schemas: the entities of a store, their attributes and their indexes.

A `ref` attribute `x` is a pointer kept in the column `xId`. The `entity` attribute of type `entity`
points at a row of one of several entities and is kept in the columns `entity` and `entityId`.
`Schema.complaint?` finds the first rule that a schema breaks, entity by entity in name order. -/

namespace EntityStore

/-- A map from names, in the order of their characters. -/
abbrev NameMap (β : Type) := Std.ExtTreeMap String β compare

/-- The type of an attribute. -/
inductive AttributeType where
  | string
  | int
  | float
  | bool
  | object
  | array
  /-- A pointer to a row of `target`. -/
  | ref (target : String)
  /-- A polymorphic pointer to a row of one of `targets`. -/
  | entity (targets : List String)
deriving DecidableEq

/-- The name of the type in a schema document. -/
def AttributeType.name : AttributeType → String
  | .string => "string"
  | .int => "int"
  | .float => "float"
  | .bool => "bool"
  | .object => "object"
  | .array => "array"
  | .ref _ => "ref"
  | .entity _ => "entity"

/-- A declared attribute. -/
structure Attribute where
  type : AttributeType
  required : Bool := false
deriving DecidableEq

/-- An index. Only fulltext indexes have a meaning for queries. -/
structure Index where
  name : String
  attributes : List String
  fulltext : Bool := false
deriving DecidableEq

/-- An index for text search. -/
def Index.forText (name : String) (attributes : List String) : Index :=
  { name, attributes, fulltext := true }

/-- A declared entity. -/
structure Entity where
  attributes : NameMap Attribute := ∅
  indexes : List Index := []

/-- Every entity that a store knows. -/
structure Schema where
  entities : NameMap Entity := ∅

/-- The columns every row has without declaring them. -/
def implicitColumns : List String := ["id", "$$createAt$$", "$$updateAt$$", "$$seq$$"]

/-- The attribute that holds the entity of a polymorphic pointer, and names such a pointer. -/
def entityColumn : String := "entity"

/-- The column that holds the id of a polymorphic pointer. -/
def entityIdColumn : String := "entityId"

namespace Entity

/-- Declares an attribute, over an earlier declaration of the same name. -/
def withAttribute (e : Entity) (name : String) (a : Attribute) : Entity :=
  { e with attributes := e.attributes.insert name a }

/-- Adds an index. -/
def withIndex (e : Entity) (index : Index) : Entity := { e with indexes := e.indexes ++ [index] }

/-- The targets of the polymorphic pointer, if the entity has one. -/
def polymorphicTargets? (e : Entity) : Option (List String) :=
  match e.attributes[entityColumn]? with
  | some ⟨.entity targets, _⟩ => some targets
  | _ => none

/-- The first fulltext index. -/
def fulltextIndex? (e : Entity) : Option Index := e.indexes.find? (·.fulltext)

/-- The first rule that the entity breaks: in its name, in an attribute, in the number of its
fulltext indexes, in an index. -/
def complaint? (schema : Schema) (name : String) (e : Entity) : Option Complaint :=
  let inName := if '$' ∈ name.toList then some (Complaint.dollarInName name) else none
  let unknown (attr target : String) : Option Complaint :=
    if target ∈ schema.entities then none else some (.unknownTarget name attr target)
  let inAttribute := e.attributes.toList.findSome? fun (attr, a) =>
    match a.type with
    | .ref target => unknown attr target
    | .entity targets =>
      if attr ≠ entityColumn then some (.polymorphicName name attr)
      else targets.findSome? (unknown attr)
    | _ => none
  let inCount :=
    if 1 < (e.indexes.filter (·.fulltext)).length then some (Complaint.severalFulltext name)
    else none
  let inIndex := e.indexes.findSome? fun index => index.attributes.findSome? fun attr =>
    if attr ∈ e.attributes then none else some (Complaint.unknownIndexed index.name name attr)
  inName.or (inAttribute.or (inCount.or inIndex))

end Entity

namespace Schema

/-- Declares an entity, over an earlier declaration of the same name. -/
def withEntity (s : Schema) (name : String) (e : Entity) : Schema :=
  { s with entities := s.entities.insert name e }

/-- The declared entity with a name. -/
def entity (s : Schema) (name : String) : Except SchemaError Entity :=
  match s.entities[name]? with
  | some e => .ok e
  | none => .error (.unknownEntity name)

/-- The attributes that a text search in an entity covers. -/
def fulltextAttributes (s : Schema) (name : String) : Except SchemaError (List String) := do
  match (← s.entity name).fulltextIndex? with
  | some index => .ok index.attributes
  | none => .error (.noFulltext name)

/-- The first rule that the schema breaks. -/
def complaint? (s : Schema) : Option Complaint :=
  s.entities.toList.findSome? fun (name, e) => e.complaint? s name

/-- Accepts a schema that breaks no rule; `location` says where it is from. -/
def register (s : Schema) (location : String) : Except SchemaError Schema :=
  match s.complaint? with
  | some c => .error (.malformed location (.complaint c))
  | none => .ok s

end Schema

end EntityStore
